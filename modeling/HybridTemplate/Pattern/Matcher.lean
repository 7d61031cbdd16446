import HybridTemplate.Pattern.Match

set_option autoImplicit false

namespace HybridTemplate

namespace Pattern

def Match.Within (m : Match) (n : Nat) : Prop :=
  m.length ≤ n ∧ ∀ g ∈ m.groups, g.2.1 ≤ g.2.2 ∧ g.2.2 ≤ m.length

theorem Match.Within.of_group? {m : Match} {n index first stop : Nat} (h : m.Within n)
    (found : m.group? index = some (first, stop)) : first ≤ stop ∧ stop ≤ m.length := by
  obtain ⟨g, hg, same⟩ := Option.map_eq_some_iff.mp found
  have bounds := h.2 g (List.mem_of_find?_eq_some hg)
  rw [same] at bounds
  exact bounds

/-- A cursor behind another one: in the same subject, with only groups added that lie
between the two. -/
structure Follows (c d : Cursor) : Prop where
  pos_le : c.pos ≤ d.pos
  total : d.pos + d.rest.length = c.pos + c.rest.length
  groups : ∀ g ∈ d.groups, g ∈ c.groups ∨ c.pos ≤ g.2.1 ∧ g.2.1 ≤ g.2.2 ∧ g.2.2 ≤ d.pos

theorem Follows.refl (c : Cursor) : Follows c c := ⟨Nat.le_refl _, rfl, fun _ h => .inl h⟩

theorem Follows.trans {c d e : Cursor} (h : Follows c d) (k : Follows d e) : Follows c e := by
  refine ⟨Nat.le_trans h.pos_le k.pos_le, k.total.trans h.total, ?_⟩
  intro g hg
  have hc := h.pos_le
  have hd := k.pos_le
  rcases k.groups g hg with old | ⟨_, _, _⟩
  · rcases h.groups g old with older | ⟨_, _, _⟩
    · exact .inl older
    · exact .inr (by omega)
  · exact .inr (by omega)

theorem follows_step {c d : Cursor} {accepts : Char → Bool} (h : d ∈ c.step accepts) :
    Follows c d := by
  unfold Cursor.step at h
  split at h
  · simp at h
  · rename_i x xs hrest
    split at h
    · obtain rfl := List.mem_singleton.mp h
      refine ⟨Nat.le_succ _, ?_, fun _ hg => .inl hg⟩
      simp only [hrest, List.length_cons]
      omega
    · simp at h

theorem follows_cross (c : Cursor) : Follows c c.cross := by
  unfold Cursor.cross
  split
  · exact ⟨Nat.le_refl _, rfl, fun _ h => .inl h⟩
  · exact .refl c

theorem follows_pass {c d : Cursor} {place : Nat} (h : d ∈ c.pass place) : Follows c d := by
  unfold Cursor.pass at h
  split at h
  · simp at h
  · obtain rfl := List.mem_singleton.mp h
    exact ⟨Nat.le_refl _, rfl, fun _ hg => .inl hg⟩

theorem Follows.note {c d : Cursor} (h : Follows c d) (index : Nat) :
    Follows c (d.note index c.pos) := by
  refine ⟨h.pos_le, h.total, ?_⟩
  intro g hg
  rcases List.mem_cons.mp hg with rfl | old
  · exact .inr ⟨Nat.le_refl _, h.pos_le, Nat.le_refl _⟩
  · exact h.groups g old

/-- What is found by going on from several cursors is found from one of them. -/
theorem mem_foldl_closure {body : Cursor → List Cursor} {greedy : Bool} {fuel : List Char}
    {start : Cursor}
    (each : ∀ found c e, e ∈ (closure body greedy fuel found c).cursors →
      e ∈ found.cursors ∨ Follows c e)
    {cs : List Cursor} (hcs : ∀ c ∈ cs, Follows start c) {found : Found} {e : Cursor}
    (h : e ∈ (cs.foldl (closure body greedy fuel) found).cursors) :
    e ∈ found.cursors ∨ Follows start e := by
  induction cs generalizing found with
  | nil => exact .inl h
  | cons c cs ih =>
    rcases ih (fun d hd => hcs d (List.mem_cons_of_mem c hd)) h with old | new
    · rcases each found c e old with older | behind
      · exact .inl older
      · exact .inr ((hcs c List.mem_cons_self).trans behind)
    · exact .inr new

theorem follows_closure {body : Cursor → List Cursor} (hbody : ∀ c, ∀ d ∈ body c, Follows c d)
    (greedy : Bool) (fuel : List Char) (found : Found) (c e : Cursor)
    (h : e ∈ (closure body greedy fuel found c).cursors) :
    e ∈ found.cursors ∨ Follows c e := by
  induction fuel generalizing found c e with
  | nil => exact .inl h
  | cons _ fuel ih =>
    rw [closure] at h
    split at h
    · exact .inl h
    · split at h
      · rcases List.mem_cons.mp h with rfl | h
        · exact .inr (.refl _)
        · have back : e ∈ (found.meet c).cursors ∨ Follows c e :=
            mem_foldl_closure ih (hbody c) h
          exact back
      · rcases mem_foldl_closure ih (hbody c) h with old | behind
        · rcases List.mem_cons.mp old with rfl | old
          · exact .inr (.refl _)
          · exact .inl old
        · exact .inr behind

theorem exists_of_mem_seq {p q : Pattern} {c d : Cursor} (h : d ∈ reach (.seq p q) c) :
    ∃ e ∈ reach p c, d ∈ reach q e :=
  List.mem_flatMap.mp (mem_of_mem_distinct h)

theorem follows_reach (p : Pattern) (c d : Cursor) (h : d ∈ reach p c) : Follows c d := by
  induction p generalizing c d with
  | empty =>
    obtain rfl := List.mem_singleton.mp h
    exact .refl _
  | one accepts => exact follows_step h
  | start =>
    simp only [reach] at h
    split at h
    · obtain rfl := List.mem_singleton.mp h
      exact .refl _
    · simp at h
  | stop =>
    simp only [reach] at h
    split at h
    · obtain rfl := List.mem_singleton.mp h
      exact .refl _
    · simp at h
  | wordBoundary =>
    simp only [reach] at h
    split at h
    · obtain rfl := List.mem_singleton.mp h
      exact follows_cross c
    · simp at h
  | once place => exact follows_pass h
  | seq p q ihp ihq =>
    obtain ⟨e, he, hd⟩ := exists_of_mem_seq h
    exact (ihp c e he).trans (ihq e d hd)
  | alt p q ihp ihq =>
    rcases List.mem_append.mp h with left | right
    · exact ihp c d left
    · exact ihq c d right
  | group index p ih =>
    obtain ⟨e, he, rfl⟩ := List.mem_map.mp h
    exact (ih c e he).note index
  | optional greedy p ih =>
    cases greedy with
    | true =>
      rcases List.mem_append.mp h with more | stays
      · exact ih c d more
      · obtain rfl := List.mem_singleton.mp stays
        exact .refl _
    | false =>
      rcases List.mem_cons.mp h with rfl | more
      · exact .refl _
      · exact ih c d more
  | loop greedy p q ihp ihq =>
    have found := List.mem_reverse.mp h
    rcases mem_foldl_closure (follows_closure ihq greedy c.fuel) (ihp c) found with none | behind
    · simp [Found.nothing] at none
    · exact behind

theorem follows_preferred? {p : Pattern} {subject : List Char} {c : Cursor}
    (h : p.preferred? subject = some c) : ∃ late, Follows (.atStart subject late) c := by
  unfold preferred? at h
  split at h
  · simp at h
  · rename_i d ds reached
    have behind (e : Cursor) (he : e ∈ d :: ds) : Follows (.atStart subject false) e :=
      follows_reach p _ e (reached ▸ he)
    split at h
    · obtain ⟨e, he, h⟩ := Option.bind_eq_some_iff.mp h
      split at h
      · exact ⟨false, behind c (List.mem_of_find?_eq_some h)⟩
      · cases h
        exact ⟨true, follows_reach p _ c (List.mem_of_mem_head? he)⟩
    · cases h
      exact ⟨false, behind c List.mem_cons_self⟩

theorem matchAt?_within {p : Pattern} {subject : List Char} {m : Match}
    (h : p.matchAt? subject = some m) : m.Within subject.length := by
  obtain ⟨c, hc, rfl⟩ := Option.map_eq_some_iff.mp h
  obtain ⟨late, behind⟩ := follows_preferred? hc
  have total : c.pos + c.rest.length = 0 + subject.length := behind.total
  refine ⟨by dsimp only; omega, ?_⟩
  intro g hg
  rcases behind.groups g hg with before | ⟨_, ordered, stops⟩
  · simp [Cursor.atStart] at before
  · exact ⟨ordered, stops⟩

end Pattern

structure Matcher where
  matchAt? : List Char → Option Pattern.Match
  within : ∀ subject m, matchAt? subject = some m → m.Within subject.length

namespace Pattern

def matcher (p : Pattern) : Matcher := ⟨p.matchAt?, fun _ _ => matchAt?_within⟩

theorem matcher_matchAt? (p : Pattern) (subject : List Char) :
    p.matcher.matchAt? subject = p.matchAt? subject := rfl

end Pattern
end HybridTemplate
