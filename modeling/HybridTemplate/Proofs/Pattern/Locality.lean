import HybridTemplate.Pattern.Matcher
import Mathlib.Data.List.Infix

set_option autoImplicit false

/-! What a pattern reaches in a subject it reaches in a longer one too, as long as nothing on the
way comes to the end of the subject. A pattern that does not accept a character never gets beyond
it, so where the character lies ahead the match does not depend on what follows. -/
namespace HybridTemplate.Pattern

def Cursor.extend (more : List Char) (c : Cursor) : Cursor := { c with rest := c.rest ++ more }

variable {more : List Char} {Before Between After : List Char → Prop} {p q : Pattern}

def Found.extend (more : List Char) (f : Found) : Found :=
  ⟨f.seen, f.cursors.map (Cursor.extend more)⟩

theorem inOrder_extend (f : Found) :
    (f.extend more).inOrder = f.inOrder.map (Cursor.extend more) :=
  List.map_reverse.symm

theorem addNew_extend (f : Found) (c : Cursor) :
    (f.extend more).addNew (c.extend more) = (f.addNew c).extend more := by
  have key : (c.extend more).key = c.key := rfl
  unfold Found.addNew
  rw [key, Found.extend]
  split <;> rfl

theorem distinct_extend (cs : List Cursor) :
    distinct (cs.map (Cursor.extend more)) = (distinct cs).map (Cursor.extend more) := by
  have folded (cs : List Cursor) (f : Found) :
      (cs.map (Cursor.extend more)).foldl Found.addNew (f.extend more) =
        (cs.foldl Found.addNew f).extend more := by
    induction cs generalizing f with
    | nil => rfl
    | cons c cs ih => rw [List.map_cons, List.foldl_cons, addNew_extend, ih, List.foldl_cons]
  match cs with
  | [] => rfl
  | [_] => rfl
  | c :: d :: cs =>
    rw [distinct, ← inOrder_extend, ← folded]
    rfl

theorem suffix_foldl_addNew (cs : List Cursor) (f : Found) :
    f.cursors <:+ (cs.foldl Found.addNew f).cursors := by
  induction cs generalizing f with
  | nil => exact List.suffix_rfl
  | cons c cs ih =>
    refine List.IsSuffix.trans ?_ (ih (f.addNew c))
    unfold Found.addNew
    split
    · exact List.suffix_rfl
    · exact List.suffix_cons c f.cursors

theorem head?_distinct (cs : List Cursor) : (distinct cs).head? = cs.head? := by
  match cs with
  | [] => rfl
  | [_] => rfl
  | c :: d :: cs =>
    have first : Found.nothing.addNew c = (Found.nothing.meet c).add c := by
      rw [Found.addNew, if_neg (by simp [Found.nothing, Seen.has])]
    obtain ⟨later, found⟩ := suffix_foldl_addNew (d :: cs) (Found.nothing.addNew c)
    rw [distinct, Found.inOrder, List.foldl_cons, ← found, first]
    simp [Found.add, Found.meet, Found.nothing]

theorem suffix_foldl_closure {body : Cursor → List Cursor} {greedy : Bool} {fuel : List Char}
    (each : ∀ f c, f.cursors <:+ (closure body greedy fuel f c).cursors) (cs : List Cursor)
    (f : Found) : f.cursors <:+ (cs.foldl (closure body greedy fuel) f).cursors := by
  induction cs generalizing f with
  | nil => exact List.suffix_rfl
  | cons c cs ih => exact (each f c).trans (ih _)

theorem suffix_closure (body : Cursor → List Cursor) (greedy : Bool) (fuel : List Char)
    (f : Found) (c : Cursor) : f.cursors <:+ (closure body greedy fuel f c).cursors := by
  induction fuel generalizing f c with
  | nil => exact List.suffix_rfl
  | cons _ fuel ih =>
    rw [closure]
    split
    · exact List.suffix_rfl
    · split
      · exact (suffix_foldl_closure ih (body c) (f.meet c)).trans (List.suffix_cons c _)
      · exact (List.suffix_cons c f.cursors).trans
          (suffix_foldl_closure ih (body c) ((f.meet c).add c))

/-- What holds of a cursor and is kept by the body holds of all that a repetition finds. -/
theorem forall_mem_foldl_closure {body : Cursor → List Cursor} {greedy : Bool} {fuel : List Char}
    {P : Cursor → Prop}
    (each : ∀ f c, P c → (∀ d ∈ f.cursors, P d) →
      ∀ d ∈ (closure body greedy fuel f c).cursors, P d)
    {cs : List Cursor} (hcs : ∀ c ∈ cs, P c) {f : Found} (hf : ∀ d ∈ f.cursors, P d) :
    ∀ d ∈ (cs.foldl (closure body greedy fuel) f).cursors, P d := by
  induction cs generalizing f with
  | nil => exact hf
  | cons c cs ih =>
    obtain ⟨here, later⟩ := List.forall_mem_cons.mp hcs
    exact ih later (each f c here hf)

theorem forall_mem_closure {body : Cursor → List Cursor} {P : Cursor → Prop}
    (kept : ∀ c, P c → ∀ d ∈ body c, P d) (greedy : Bool) (fuel : List Char) (f : Found)
    (c : Cursor) (here : P c) (hf : ∀ d ∈ f.cursors, P d) :
    ∀ d ∈ (closure body greedy fuel f c).cursors, P d := by
  induction fuel generalizing f c with
  | nil => exact hf
  | cons _ fuel ih =>
    rw [closure]
    split
    · exact hf
    · split
      · exact List.forall_mem_cons.mpr
          ⟨here, forall_mem_foldl_closure ih (kept c here) (f := f.meet c) hf⟩
      · exact forall_mem_foldl_closure ih (kept c here) (f := (f.meet c).add c)
          (List.forall_mem_cons.mpr ⟨here, hf⟩)

/-- What holds of the first cursors of a repetition and is kept by the body holds of all that it
reaches. -/
theorem forall_mem_reach_loop {P : Cursor → Prop} {greedy : Bool} {c : Cursor}
    (first : ∀ d ∈ reach p c, P d) (kept : ∀ d, P d → ∀ e ∈ reach q d, P e) :
    ∀ d ∈ reach (.loop greedy p q) c, P d := by
  intro d hd
  refine forall_mem_foldl_closure ?_ first (f := .nothing) (fun _ => nofun) d
    (List.mem_reverse.mp hd)
  exact fun f e he hf => forall_mem_closure kept greedy c.fuel f e he hf

theorem reach_seq_extend {c : Cursor}
    (same : reach p (c.extend more) = (reach p c).map (Cursor.extend more))
    (each : ∀ d ∈ reach p c, reach q (d.extend more) = (reach q d).map (Cursor.extend more)) :
    reach (.seq p q) (c.extend more) = (reach (.seq p q) c).map (Cursor.extend more) := by
  rw [reach, reach, same, List.flatMap_map, List.flatMap_congr each, ← List.map_flatMap,
    distinct_extend]

/-- From where the rest satisfies `Before` the pattern reaches the same in every longer subject,
and the rest satisfies `After` there. -/
def Local (Before After : List Char → Prop) (p : Pattern) : Prop :=
  ∀ (more : List Char) (c : Cursor), c.late = false → Before c.rest →
    reach p (c.extend more) = (reach p c).map (Cursor.extend more) ∧
      ∀ d ∈ reach p c, d.late = false ∧ After d.rest

namespace Local

theorem mono {Before' : List Char → Prop} (hp : Local Before After p)
    (h : ∀ cs, Before' cs → Before cs) : Local Before' After p :=
  fun more c late before => hp more c late (h _ before)

theorem empty (h : ∀ cs, Before cs → After cs) : Local Before After .empty := by
  intro more c late before
  refine ⟨rfl, fun d hd => ?_⟩
  obtain rfl := List.mem_singleton.mp hd
  exact ⟨late, h _ before⟩

theorem one {accepts : Char → Bool} (filled : ¬ Before [])
    (h : ∀ d ds, Before (d :: ds) → accepts d = true → After ds) :
    Local Before After (.one accepts) := by
  intro more c late before
  cases rest : c.rest with
  | nil => exact absurd (rest ▸ before) filled
  | cons d ds =>
    simp only [reach, Cursor.step, Cursor.extend, rest, List.cons_append]
    by_cases ok : accepts d = true
    · rw [if_pos ok, if_pos ok]
      refine ⟨rfl, fun e he => ?_⟩
      obtain rfl := List.mem_singleton.mp he
      exact ⟨late, h d ds (rest ▸ before) ok⟩
    · rw [if_neg ok, if_neg ok]
      exact ⟨rfl, List.forall_mem_nil _⟩

theorem wordBoundary (filled : ¬ Before []) (h : ∀ cs, Before cs → After cs) :
    Local Before After .wordBoundary := by
  intro more c late before
  have here : (c.extend more).atWordBoundary = c.atWordBoundary := by
    cases rest : c.rest with
    | nil => exact absurd (rest ▸ before) filled
    | cons d ds => simp [Cursor.atWordBoundary, Cursor.extend, rest]
  have stays : c.cross = c := by simp [Cursor.cross, late]
  have stays' : (c.extend more).cross = c.extend more := by simp [Cursor.cross, Cursor.extend, late]
  simp only [reach, here, stays, stays']
  split
  · refine ⟨rfl, fun d hd => ?_⟩
    obtain rfl := List.mem_singleton.mp hd
    exact ⟨late, h _ before⟩
  · exact ⟨rfl, List.forall_mem_nil _⟩

theorem start (h : ∀ cs, Before cs → After cs) : Local Before After .start := by
  intro more c late before
  have here : (c.extend more).pos = c.pos := rfl
  simp only [reach, here]
  split
  · refine ⟨rfl, fun d hd => ?_⟩
    obtain rfl := List.mem_singleton.mp hd
    exact ⟨late, h _ before⟩
  · exact ⟨rfl, List.forall_mem_nil _⟩

theorem seq (hp : Local Before Between p) (hq : Local Between After q) :
    Local Before After (.seq p q) := by
  intro more c late before
  obtain ⟨same, reached⟩ := hp more c late before
  constructor
  · exact reach_seq_extend same fun d hd => (hq more d (reached d hd).1 (reached d hd).2).1
  · intro d hd
    obtain ⟨e, he, hd⟩ := exists_of_mem_seq hd
    obtain ⟨still, between⟩ := reached e he
    exact (hq more e still between).2 d hd

theorem alt (hp : Local Before After p) (hq : Local Before After q) :
    Local Before After (.alt p q) := by
  intro more c late before
  obtain ⟨samep, reachedp⟩ := hp more c late before
  obtain ⟨sameq, reachedq⟩ := hq more c late before
  refine ⟨?_, fun d hd => ?_⟩
  · rw [reach, reach, samep, sameq, List.map_append]
  · exact (List.mem_append.mp hd).elim (reachedp d) (reachedq d)

theorem group (index : Nat) (hp : Local Before After p) : Local Before After (.group index p) := by
  intro more c late before
  obtain ⟨same, reached⟩ := hp more c late before
  refine ⟨?_, fun d hd => ?_⟩
  · rw [reach, reach, same, List.map_map, List.map_map]
    rfl
  · obtain ⟨e, he, rfl⟩ := List.mem_map.mp hd
    exact reached e he

theorem optional (greedy : Bool) (hp : Local Before After p) (h : ∀ cs, Before cs → After cs) :
    Local Before After (.optional greedy p) := by
  intro more c late before
  obtain ⟨same, reached⟩ := hp more c late before
  have here : c.late = false ∧ After c.rest := ⟨late, h _ before⟩
  cases greedy with
  | true =>
    refine ⟨?_, fun d hd => ?_⟩
    · simp [reach, same]
    · rcases List.mem_append.mp hd with further | stays
      · exact reached d further
      · obtain rfl := List.mem_singleton.mp stays
        exact here
  | false =>
    refine ⟨?_, fun d hd => ?_⟩
    · simp [reach, same]
    · rcases List.mem_cons.mp hd with rfl | further
      · exact here
      · exact reached d further

end Local

def consumes : Pattern → Bool
  | .one _ => true
  | .seq p q => p.consumes || q.consumes
  | .alt p q => p.consumes && q.consumes
  | .group _ p => p.consumes
  | .loop _ p _ => p.consumes
  | _ => false

theorem Follows.length_le {c d : Cursor} (h : Follows c d) : d.rest.length ≤ c.rest.length := by
  have := h.pos_le
  have := h.total
  omega

theorem length_lt_of_consumes {c d : Cursor} (h : p.consumes = true) (hd : d ∈ reach p c) :
    d.rest.length < c.rest.length := by
  induction p generalizing c d with
  | empty => cases h
  | one accepts =>
    simp only [reach, Cursor.step] at hd
    split at hd
    · cases hd
    · rename_i rest
      split at hd
      · obtain rfl := List.mem_singleton.mp hd
        simp [rest]
      · cases hd
  | start => cases h
  | stop => cases h
  | wordBoundary => cases h
  | once place => cases h
  | seq p q ihp ihq =>
    obtain ⟨e, he, hd⟩ := exists_of_mem_seq hd
    have first := (follows_reach p c e he).length_le
    have second := (follows_reach q e d hd).length_le
    rcases Bool.or_eq_true_iff.mp h with hp | hq
    · exact Nat.lt_of_le_of_lt second (ihp hp he)
    · exact Nat.lt_of_lt_of_le (ihq hq hd) first
  | alt p q ihp ihq =>
    obtain ⟨hp, hq⟩ := Bool.and_eq_true_iff.mp h
    exact (List.mem_append.mp hd).elim (ihp hp) (ihq hq)
  | group index p ih =>
    obtain ⟨e, he, rfl⟩ := List.mem_map.mp hd
    have shorter : e.rest.length < c.rest.length := ih h he
    exact shorter
  | optional greedy p _ => cases h
  | loop greedy p q ihp _ =>
    exact forall_mem_reach_loop (P := fun e => e.rest.length < c.rest.length)
      (fun e he => ihp h he)
      (fun i hi j hj => Nat.lt_of_le_of_lt (follows_reach q i j hj).length_le hi) d hd

/-- A repetition finds the same in a longer subject. Each time the body consumes something, so
that neither the rest nor the fuel comes to an end. -/
theorem closure_extend {body : Cursor → List Cursor}
    (kept : ∀ c, c.late = false ∧ After c.rest →
      body (c.extend more) = (body c).map (Cursor.extend more) ∧
        ∀ d ∈ body c, (d.late = false ∧ After d.rest) ∧ d.rest.length < c.rest.length)
    (greedy : Bool) (fuel fuel' : List Char) (f : Found) (c : Cursor)
    (here : c.late = false ∧ After c.rest) (enough : c.rest.length < fuel.length)
    (enough' : c.rest.length < fuel'.length) :
    closure body greedy fuel' (f.extend more) (c.extend more) =
      (closure body greedy fuel f c).extend more := by
  induction fuel generalizing fuel' f c with
  | nil => exact absurd enough (Nat.not_lt_zero _)
  | cons _ fuel ih =>
    cases fuel' with
    | nil => exact absurd enough' (Nat.not_lt_zero _)
    | cons _ fuel' =>
      obtain ⟨same, inner⟩ := kept c here
      have key : (c.extend more).key = c.key := rfl
      have seen : (f.extend more).seen = f.seen := rfl
      have folded (cs : List Cursor) (f : Found)
          (hcs : ∀ d ∈ cs, (d.late = false ∧ After d.rest) ∧ d.rest.length < c.rest.length) :
          (cs.map (Cursor.extend more)).foldl (closure body greedy fuel') (f.extend more) =
            (cs.foldl (closure body greedy fuel) f).extend more := by
        induction cs generalizing f with
        | nil => rfl
        | cons d cs ihcs =>
          obtain ⟨⟨there, shorter⟩, later⟩ := List.forall_mem_cons.mp hcs
          rw [List.length_cons] at enough enough'
          rw [List.map_cons, List.foldl_cons, ih fuel' f d there (by omega) (by omega),
            ihcs _ later, List.foldl_cons]
      rw [closure, closure, key, seen, same]
      split
      · rfl
      · split
        · have met : (f.extend more).meet (c.extend more) = (f.meet c).extend more := rfl
          rw [met, folded (body c) (f.meet c) inner]
          rfl
        · have met : ((f.extend more).meet (c.extend more)).add (c.extend more) =
              ((f.meet c).add c).extend more := rfl
          rw [met, folded (body c) _ inner]

theorem reach_loop_extend {c : Cursor} (late : c.late = false)
    (same : reach p (c.extend more) = (reach p c).map (Cursor.extend more))
    (reached : ∀ d ∈ reach p c, d.late = false ∧ After d.rest)
    (kept : ∀ d, d.late = false ∧ After d.rest →
      reach q (d.extend more) = (reach q d).map (Cursor.extend more) ∧
        ∀ e ∈ reach q d, (e.late = false ∧ After e.rest) ∧ e.rest.length < d.rest.length)
    (greedy : Bool) :
    reach (.loop greedy p q) (c.extend more) =
      (reach (.loop greedy p q) c).map (Cursor.extend more) := by
  have folded (cs : List Cursor) (f : Found)
      (hcs : ∀ d ∈ cs, (d.late = false ∧ After d.rest) ∧ d.rest.length ≤ c.rest.length) :
      (cs.map (Cursor.extend more)).foldl (closure (reach q) greedy (c.extend more).fuel)
          (f.extend more) =
        (cs.foldl (closure (reach q) greedy c.fuel) f).extend more := by
    induction cs generalizing f with
    | nil => rfl
    | cons d cs ih =>
      obtain ⟨⟨there, shorter⟩, later⟩ := List.forall_mem_cons.mp hcs
      have enough : d.rest.length < c.fuel.length := by
        simp only [Cursor.fuel, late, Bool.false_eq_true, if_false, List.length_cons]
        omega
      have enough' : d.rest.length < (c.extend more).fuel.length := by
        simp only [Cursor.fuel, Cursor.extend, late, Bool.false_eq_true, if_false,
          List.length_cons, List.length_append]
        omega
      rw [List.map_cons, List.foldl_cons,
        closure_extend kept greedy c.fuel _ f d there enough enough', ih _ later, List.foldl_cons]
  have first : ∀ d ∈ reach p c, (d.late = false ∧ After d.rest) ∧
      d.rest.length ≤ c.rest.length := fun d hd =>
    ⟨reached d hd, (follows_reach p c d hd).length_le⟩
  rw [reach, reach, ← inOrder_extend, ← folded (reach p c) .nothing first, same]
  rfl

theorem Local.loop (greedy : Bool) (hp : Local Before After p) (hq : Local After After q)
    (consumes : q.consumes = true) : Local Before After (.loop greedy p q) := by
  intro more c late before
  obtain ⟨same, reached⟩ := hp more c late before
  have kept (d : Cursor) (hd : d.late = false ∧ After d.rest) :
      reach q (d.extend more) = (reach q d).map (Cursor.extend more) ∧
        ∀ e ∈ reach q d, (e.late = false ∧ After e.rest) ∧ e.rest.length < d.rest.length := by
    obtain ⟨sameq, reachedq⟩ := hq more d hd.1 hd.2
    exact ⟨sameq, fun e he => ⟨reachedq e he, length_lt_of_consumes consumes he⟩⟩
  exact ⟨reach_loop_extend late same reached kept greedy,
    forall_mem_reach_loop reached fun d hd e he => ((kept d hd).2 e he).1⟩

theorem Local.many (hp : Local After After p) (consumes : p.consumes = true) :
    Local After After (.many p) :=
  .loop true (.empty fun _ => id) hp consumes

theorem Local.char (x : Char) :
    Local (fun cs => cs ≠ [] ∧ ∀ ds, cs = x :: ds → After ds) After (.char x) := by
  refine .one (fun filled => filled.1 rfl) fun d ds before ok => ?_
  obtain rfl := beq_iff_eq.mp ok
  exact before.2 ds rfl

theorem Local.noneOf {members : String} (filled : ¬ Before [])
    (h : ∀ d ds, Before (d :: ds) → d ∉ members.toList → After ds) :
    Local Before After (.noneOf members) :=
  .one filled fun d ds before ok => h d ds before (by simpa using ok)

theorem Local.upTo (accepts : Char → Bool) (n : Nat) :
    Local (fun cs => ∀ front back, front.length ≤ n → (∀ c ∈ front, accepts c = true) →
      cs = front ++ back → back ≠ [] ∧ After back) After (.upTo true (.one accepts) n) := by
  induction n with
  | zero => exact .empty fun cs before => (before [] cs (Nat.le_refl 0) (by simp) rfl).2
  | succ n ih =>
    refine .optional true (.seq (.one (fun before => ?_) fun d ds before ok => ?_) ih)
      fun cs before => (before [] cs (Nat.zero_le _) (by simp) rfl).2
    · exact (before [] [] (Nat.zero_le _) (by simp) rfl).1 rfl
    · intro front back short all split
      refine before (d :: front) back (Nat.succ_le_succ short) ?_ (by rw [split]; rfl)
      exact List.forall_mem_cons.mpr ⟨ok, all⟩

/-- Whether no part of the pattern accepts the character or looks at the end of the subject. -/
def avoids (x : Char) : Pattern → Bool
  | .empty => true
  | .one accepts => !accepts x
  | .start => true
  | .stop => false
  | .wordBoundary => true
  | .once _ => false
  | .seq p q => p.avoids x && q.avoids x
  | .alt p q => p.avoids x && q.avoids x
  | .group _ p => p.avoids x
  | .optional _ p => p.avoids x
  | .loop _ p q => p.avoids x && q.avoids x && q.consumes

/-- The match of a pattern ends before a character that the pattern does not accept. -/
theorem local_of_avoids {x : Char} (h : p.avoids x = true) :
    Local (x ∈ ·) (x ∈ ·) p := by
  induction p with
  | empty => exact .empty fun _ => id
  | one accepts =>
    refine .one (fun none => by cases none) fun d ds ahead ok => ?_
    refine (List.mem_cons.mp ahead).resolve_left ?_
    rintro rfl
    simp [avoids, ok] at h
  | start => exact .start fun _ => id
  | stop => cases h
  | wordBoundary => exact .wordBoundary (fun none => by cases none) fun _ => id
  | once place => cases h
  | seq p q ihp ihq =>
    obtain ⟨hp, hq⟩ := Bool.and_eq_true_iff.mp h
    exact .seq (ihp hp) (ihq hq)
  | alt p q ihp ihq =>
    obtain ⟨hp, hq⟩ := Bool.and_eq_true_iff.mp h
    exact .alt (ihp hp) (ihq hq)
  | group index p ih => exact .group index (ih h)
  | optional greedy p ih => exact .optional greedy (ih h) fun _ => id
  | loop greedy p q ihp ihq =>
    obtain ⟨both, consumes⟩ := Bool.and_eq_true_iff.mp h
    obtain ⟨hp, hq⟩ := Bool.and_eq_true_iff.mp both
    exact .loop greedy (ihp hp) (ihq hq) consumes

def LocalFirst (Before : List Char → Prop) (p : Pattern) : Prop :=
  ∀ (more : List Char) (c : Cursor), c.late = false → Before c.rest →
    (reach p (c.extend more)).head? = (reach p c).head?.map (Cursor.extend more)

theorem Local.first (h : Local Before After p) : LocalFirst Before p := by
  intro more c late before
  rw [(h more c late before).1, List.head?_map]

theorem LocalFirst.group (index : Nat) (h : LocalFirst Before p) :
    LocalFirst Before (.group index p) := by
  intro more c late before
  rw [reach, reach, List.head?_map, List.head?_map, h more c late before, Option.map_map,
    Option.map_map]
  rfl

theorem findSome?_extend {cs : List Cursor}
    (each : ∀ c ∈ cs,
      (reach q (c.extend more)).head? = (reach q c).head?.map (Cursor.extend more)) :
    (cs.map (Cursor.extend more)).findSome? (fun c => (reach q c).head?) =
      (cs.findSome? fun c => (reach q c).head?).map (Cursor.extend more) := by
  induction cs with
  | nil => rfl
  | cons c cs ih =>
    obtain ⟨here, later⟩ := List.forall_mem_cons.mp each
    rw [List.map_cons, List.findSome?_cons, List.findSome?_cons, here, ih later]
    cases (reach q c).head? <;> rfl

theorem head?_reach_seq (p q : Pattern) (c : Cursor) :
    (reach (.seq p q) c).head? = (reach p c).findSome? fun d => (reach q d).head? := by
  rw [reach, head?_distinct, List.head?_flatMap]

theorem Local.seq_first (hp : Local Before Between p) (hq : LocalFirst Between q) :
    LocalFirst Before (.seq p q) := by
  intro more c late before
  obtain ⟨same, reached⟩ := hp more c late before
  rw [head?_reach_seq, head?_reach_seq, same]
  exact findSome?_extend fun d hd => hq more d (reached d hd).1 (reached d hd).2

theorem matchAt?_eq (fixed : p.dependsOnDelay = false) (subject : List Char) :
    p.matchAt? subject =
      (reach p (.atStart subject false)).head?.map fun c => ⟨c.pos, c.groups⟩ := by
  unfold matchAt? preferred?
  cases reach p (.atStart subject false) with
  | nil => rfl
  | cons c cs =>
    rw [fixed]
    rfl

theorem LocalFirst.matchAt?_append (h : LocalFirst Before p) (fixed : p.dependsOnDelay = false)
    {subject : List Char} (before : Before subject) (more : List Char) :
    p.matchAt? (subject ++ more) = p.matchAt? subject := by
  have longer : Cursor.atStart (subject ++ more) false =
      (Cursor.atStart subject false).extend more := rfl
  rw [matchAt?_eq fixed, matchAt?_eq fixed, longer, h more _ rfl before, Option.map_map]
  rfl

theorem dependsOnDelay_of_avoids {x : Char} (h : p.avoids x = true) : p.dependsOnDelay = false := by
  have never : p.contains isOnce = false := by
    induction p with
    | empty => rfl
    | one accepts => rfl
    | start => rfl
    | stop => rfl
    | wordBoundary => rfl
    | once place => cases h
    | seq p q ihp ihq =>
      obtain ⟨hp, hq⟩ := Bool.and_eq_true_iff.mp h
      simp [contains, isOnce, ihp hp, ihq hq]
    | alt p q ihp ihq =>
      obtain ⟨hp, hq⟩ := Bool.and_eq_true_iff.mp h
      simp [contains, isOnce, ihp hp, ihq hq]
    | group index p ih => simpa [contains, isOnce] using ih h
    | optional greedy p ih => simpa [contains, isOnce] using ih h
    | loop greedy p q ihp ihq =>
      obtain ⟨hp, hq⟩ := Bool.and_eq_true_iff.mp (Bool.and_eq_true_iff.mp h).1
      simp [contains, isOnce, ihp hp, ihq hq]
  rw [dependsOnDelay, never, Bool.false_and]

theorem matchAt?_of_avoids {x : Char} (h : p.avoids x = true) {subject : List Char}
    (ahead : x ∈ subject) (more : List Char) : p.matchAt? (subject ++ more) = p.matchAt? subject :=
  (local_of_avoids h).first.matchAt?_append (dependsOnDelay_of_avoids h) ahead more

theorem findSome?_of_head? {α β : Type} {l : List α} {f : α → Option β} {a : α} {b : β}
    (first : l.head? = some a) (found : f a = some b) : l.findSome? f = some b := by
  cases l with
  | nil => cases first
  | cons c l =>
    obtain rfl := Option.some.inj first
    rw [List.findSome?_cons, found]

theorem head?_reach_upTo {accepts : Char → Bool} {n : Nat} {front back : List Char}
    (short : front.length ≤ n) (all : ∀ c ∈ front, accepts c = true)
    (stops : ∀ c, back.head? = some c → accepts c = false) {c : Cursor}
    (rest : c.rest = front ++ back) :
    ∃ d, (reach (.upTo true (.one accepts) n) c).head? = some d ∧
      d.pos = c.pos + front.length ∧ d.rest = back ∧ d.groups = c.groups := by
  induction n generalizing front c with
  | zero =>
    obtain rfl := List.eq_nil_of_length_eq_zero (Nat.le_zero.mp short)
    exact ⟨c, rfl, rfl, rest, rfl⟩
  | succ n ih =>
    have further : (reach (.upTo true (.one accepts) (n + 1)) c).head? =
        ((c.step accepts).findSome? fun d =>
          (reach (.upTo true (.one accepts) n) d).head?).or (some c) := by
      rw [Pattern.upTo, reach, if_pos rfl, List.head?_append, head?_reach_seq]
      rfl
    cases front with
    | nil =>
      have stuck : c.step accepts = [] := by
        rw [Cursor.step, rest]
        cases back with
        | nil => rfl
        | cons d ds => exact if_neg (by simp [stops d rfl])
      exact ⟨c, by rw [further, stuck]; rfl, rfl, rest, rfl⟩
    | cons d front =>
      obtain ⟨here, later⟩ := List.forall_mem_cons.mp all
      have on : c.step accepts =
          [⟨c.pos + 1, some d, front ++ back, c.groups, [], c.late⟩] := by
        rw [Cursor.step, rest]
        exact if_pos here
      obtain ⟨e, found, pos, left, groups⟩ := ih (Nat.le_of_succ_le_succ short) later
        (c := ⟨c.pos + 1, some d, front ++ back, c.groups, [], c.late⟩) rfl
      refine ⟨e, ?_, ?_, left, groups⟩
      · rw [further, on, List.findSome?_cons, found]
        rfl
      · rw [pos, List.length_cons]
        dsimp only
        omega

theorem rest_of_mem_char {x : Char} {c d : Cursor} (h : d ∈ reach (.char x) c) :
    c.rest = x :: d.rest := by
  simp only [Pattern.char, reach, Cursor.step] at h
  split at h
  · cases h
  · rename_i y ys rest
    split at h
    · rename_i here
      obtain rfl := List.mem_singleton.mp h
      rw [rest, beq_iff_eq.mp here]
    · cases h

theorem not_matchAt?_char {x : Char} {cs : List Char} (absent : x ∉ cs) :
    (Pattern.char x).matchAt? cs = none := by
  rw [matchAt?_eq (by rfl), Option.map_eq_none_iff, List.head?_eq_none_iff,
    List.eq_nil_iff_forall_not_mem]
  intro d hd
  have rest : cs = x :: d.rest := rest_of_mem_char hd
  exact absent (rest ▸ List.mem_cons_self)

theorem Seen.has_add (seen : Seen) (key other : Nat) :
    (seen.add key).has other = (seen.has other || decide (key = other)) := by
  rw [Seen.add, Seen.has, Seen.has, Nat.testBit_or, Nat.one_shiftLeft, Nat.testBit_two_pow]

def Found.through (close : Pattern) (f : Found) : Option Cursor :=
  f.inOrder.findSome? fun c => (reach close c).head?

theorem through_add (close : Pattern) (f : Found) (c : Cursor) :
    (f.add c).through close = (f.through close).or (reach close c).head? := by
  have last : [c].findSome? (fun c => (reach close c).head?) = (reach close c).head? := by
    rw [List.findSome?_cons]
    cases (reach close c).head? <;> rfl
  rw [Found.through, Found.inOrder, Found.add, List.reverse_cons, List.findSome?_append, last]
  rfl

theorem through_of_suffix {close : Pattern} {f g : Found} (h : f.cursors <:+ g.cursors) {d : Cursor}
    (found : f.through close = some d) : g.through close = some d := by
  obtain ⟨later, whole⟩ := h
  rw [Found.through, Found.inOrder] at found
  rw [Found.through, Found.inOrder, ← whole, List.reverse_append, List.findSome?_append, found]
  rfl

/-- From where the rest satisfies `Before`, `close` leads on, in every longer subject alike, or
it leads nowhere and the body goes one way to where the rest satisfies `Before` again. -/
def Onward (Before : List Char → Prop) (body close : Pattern) : Prop :=
  ∀ (more : List Char) (c : Cursor), c.late = false → Before c.rest →
    (∃ d, (reach close c).head? = some d ∧
        (reach close (c.extend more)).head? = some (d.extend more)) ∨
      reach close c = [] ∧ reach close (c.extend more) = [] ∧
        ∃ d, reach body c = [d] ∧ reach body (c.extend more) = [d.extend more] ∧
          d.late = false ∧ Before d.rest

/-- A reluctant repetition is left at the first chance, in a longer subject as well. -/
theorem through_closure_extend {body close : Pattern} (onward : Onward Before body close)
    (consumes : body.consumes = true) (fuel fuel' : List Char) (f f' : Found) (c : Cursor)
    (late : c.late = false) (before : Before c.rest) (enough : c.rest.length < fuel.length)
    (enough' : c.rest.length < fuel'.length) (fresh : ∀ k, c.pos ≤ k → f.seen.has k = false)
    (fresh' : ∀ k, c.pos ≤ k → f'.seen.has k = false) (missed : f.through close = none)
    (missed' : f'.through close = none) :
    (closure (reach body) false fuel' f' (c.extend more)).through close =
      ((closure (reach body) false fuel f c).through close).map (Cursor.extend more) := by
  induction fuel generalizing fuel' f f' c with
  | nil => exact absurd enough (Nat.not_lt_zero _)
  | cons _ fuel ih =>
    cases fuel' with
    | nil => exact absurd enough' (Nat.not_lt_zero _)
    | cons _ fuel' =>
      have key : c.key = c.pos := by simp [Cursor.key, late]
      have key' : (c.extend more).key = c.pos := key
      have entered : ((f.meet c).add c).through close = (reach close c).head? := by
        rw [through_add]
        exact congrArg (Option.or · _) missed
      have entered' : ((f'.meet (c.extend more)).add (c.extend more)).through close =
          (reach close (c.extend more)).head? := by
        rw [through_add]
        exact congrArg (Option.or · _) missed'
      rw [closure, closure, key, key', fresh c.pos (Nat.le_refl _), fresh' c.pos (Nat.le_refl _)]
      simp only [Bool.false_eq_true, if_false]
      rcases onward more c late before with
        ⟨d, leads, leads'⟩ | ⟨stuck, stuck', d, on, on', still, there⟩
      · rw [through_of_suffix (suffix_foldl_closure (suffix_closure _ _ _) _ _)
          (entered'.trans leads'),
          through_of_suffix (suffix_foldl_closure (suffix_closure _ _ _) _ _)
          (entered.trans leads)]
        rfl
      · have shorter : d.rest.length < c.rest.length :=
          length_lt_of_consumes consumes (on ▸ List.mem_singleton_self d)
        have ahead : c.pos < d.pos := by
          have := (follows_reach body c d (on ▸ List.mem_singleton_self d)).total
          omega
        have later (f : Found) (fresh : ∀ k, c.pos ≤ k → f.seen.has k = false) (k : Nat)
            (hk : d.pos ≤ k) : (f.seen.add c.pos).has k = false := by
          rw [Seen.has_add, fresh k (by omega), Bool.false_or, decide_eq_false_iff_not]
          omega
        rw [on, on', List.foldl_cons, List.foldl_nil, List.foldl_cons, List.foldl_nil]
        rw [List.length_cons] at enough enough'
        refine ih fuel' _ _ d still there (by omega) (by omega) ?_ ?_ ?_ ?_
        · intro k hk
          rw [Found.add, Found.meet, key]
          exact later f fresh k hk
        · intro k hk
          rw [Found.add, Found.meet, key']
          exact later f' fresh' k hk
        · rw [entered, stuck]
          rfl
        · rw [entered', stuck']
          rfl

theorem head?_reach_few (body close : Pattern) (c : Cursor) :
    (reach (.seq (.few body) close) c).head? =
      (closure (reach body) false c.fuel .nothing c).through close := by
  rw [head?_reach_seq]
  rfl

theorem Onward.few {body close : Pattern} (onward : Onward Before body close)
    (consumes : body.consumes = true) : LocalFirst Before (.seq (.few body) close) := by
  intro more c late before
  have fuel : c.fuel = ' ' :: c.rest := by simp [Cursor.fuel, late]
  have fuel' : (c.extend more).fuel = ' ' :: (c.rest ++ more) := by
    simp [Cursor.fuel, Cursor.extend, late]
  have unseen (k : Nat) (_ : c.pos ≤ k) : Found.nothing.seen.has k = false :=
    Nat.zero_testBit k
  rw [head?_reach_few, head?_reach_few, fuel, fuel']
  refine through_closure_extend onward consumes _ _ .nothing .nothing c late before ?_ ?_ unseen
    unseen rfl rfl
  · simp
  · simp only [List.length_cons, List.length_append]
    omega

end HybridTemplate.Pattern
