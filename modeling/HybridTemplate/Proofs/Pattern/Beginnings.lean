import HybridTemplate.Proofs.Pattern.Preferred

set_option autoImplicit false

namespace HybridTemplate.Pattern

variable {x : Char} {p q : Pattern} {c d : Cursor} {cs front back more : List Char}
  {accepts : Char → Bool}

/-- Whether a match that is not empty can begin with the character. -/
def begins (x : Char) : Pattern → Bool
  | .one accepts => accepts x
  | .seq p q => p.begins x || !p.consumes && q.begins x
  | .alt p q => p.begins x || q.begins x
  | .group _ p => p.begins x
  | .optional _ p => p.begins x
  | .loop _ p q => p.begins x || !p.consumes && q.begins x
  | _ => false

theorem rest_of_mem_one (hd : d ∈ reach (one accepts) c) :
    ∃ x cs, accepts x = true ∧ c.rest = x :: cs ∧ d.rest = cs := by
  simp only [reach, Cursor.step] at hd
  split at hd
  · cases hd
  · rename_i x cs rest
    split at hd
    · rename_i ok
      obtain rfl := List.mem_singleton.mp hd
      exact ⟨x, cs, ok, rest, rfl⟩
    · cases hd

theorem rest_of_not_begins (h : p.begins x = false) (rest : c.rest = x :: cs)
    (hd : d ∈ reach p c) : d.rest = c.rest := by
  induction p generalizing c d with
  | empty =>
    obtain rfl := List.mem_singleton.mp hd
    rfl
  | one accepts =>
    have rejected : accepts x = false := h
    simp [reach, Cursor.step, rest, rejected] at hd
  | start =>
    simp only [reach] at hd
    split at hd
    · obtain rfl := List.mem_singleton.mp hd
      rfl
    · cases hd
  | stop => simp [reach, rest] at hd
  | wordBoundary =>
    simp only [reach] at hd
    split at hd
    · obtain rfl := List.mem_singleton.mp hd
      unfold Cursor.cross
      split <;> rfl
    · cases hd
  | once place =>
    simp only [reach, Cursor.pass] at hd
    split at hd
    · cases hd
    · obtain rfl := List.mem_singleton.mp hd
      rfl
  | seq p q ihp ihq =>
    obtain ⟨hp, hq⟩ := Bool.or_eq_false_iff.mp h
    obtain ⟨e, he, hd⟩ := exists_of_mem_seq hd
    have stays : e.rest = c.rest := ihp hp rest he
    cases consumes : p.consumes with
    | true =>
      have shorter := length_lt_of_consumes consumes he
      rw [stays] at shorter
      exact absurd shorter (Nat.lt_irrefl _)
    | false =>
      rw [consumes] at hq
      rw [ihq hq (stays.trans rest) hd, stays]
  | alt p q ihp ihq =>
    obtain ⟨hp, hq⟩ := Bool.or_eq_false_iff.mp h
    exact (List.mem_append.mp hd).elim (ihp hp rest) (ihq hq rest)
  | group index p ih =>
    obtain ⟨e, he, rfl⟩ := List.mem_map.mp hd
    have stays : e.rest = c.rest := ih h rest he
    exact stays
  | optional greedy p ih =>
    have either : d ∈ reach p c ∨ d = c := by
      cases greedy with
      | true => simpa [reach] using hd
      | false => simpa [reach, or_comm] using hd
    rcases either with further | rfl
    · exact ih h rest further
    · rfl
  | loop greedy p q ihp ihq =>
    obtain ⟨hp, hq⟩ := Bool.or_eq_false_iff.mp h
    cases consumes : p.consumes with
    | true =>
      have none : ∀ e ∈ reach p c, False := fun e he => by
        have shorter := length_lt_of_consumes consumes he
        rw [ihp hp rest he] at shorter
        exact Nat.lt_irrefl _ shorter
      exact (forall_mem_reach_loop none (fun _ absurd => absurd.elim) d hd).elim
    | false =>
      rw [consumes] at hq
      refine forall_mem_reach_loop (P := fun e => e.rest = c.rest) (fun e he => ihp hp rest he) ?_
        d hd
      intro e there f hf
      rw [ihq hq (there.trans rest) hf, there]

theorem reach_of_not_begins (h : p.begins x = false) (consumes : p.consumes = true)
    (rest : c.rest = x :: cs) : reach p c = [] := by
  refine List.eq_nil_iff_forall_not_mem.mpr fun d hd => ?_
  have shorter := length_lt_of_consumes consumes hd
  rw [rest_of_not_begins h rest hd] at shorter
  exact Nat.lt_irrefl _ shorter

theorem matchAt?_of_unreached (h : ∀ d, d ∉ reach p (.atStart cs false)) :
    p.matchAt? cs = none := by
  unfold matchAt? preferred?
  rw [List.eq_nil_iff_forall_not_mem.mpr h]
  rfl

/-- A pattern does not match where none of its matches can begin. -/
theorem matchAt?_of_not_begins (h : p.begins x = false) (consumes : p.consumes = true)
    (cs : List Char) : p.matchAt? (x :: cs) = none :=
  matchAt?_of_unreached (List.eq_nil_iff_forall_not_mem.mp (reach_of_not_begins h consumes rfl))

theorem reach_chars (w : List Char) (rest : c.rest = w ++ back) :
    ∃ d, reach (seqs (w.map char)) c = [d] ∧ d.pos = c.pos + w.length ∧ d.rest = back ∧
      d.before = w.getLast?.or c.before ∧ d.groups = c.groups ∧ d.late = c.late := by
  induction w generalizing c with
  | nil => exact ⟨c, rfl, rfl, rest, rfl, rfl, rfl⟩
  | cons x w ih =>
    have first : reach (char x) c = [⟨c.pos + 1, some x, w ++ back, c.groups, [], c.late⟩] := by
      simp [char, reach, Cursor.step, rest]
    obtain ⟨d, one, pos, left, before, groups, late⟩ :=
      ih (c := ⟨c.pos + 1, some x, w ++ back, c.groups, [], c.late⟩) rfl
    have position : d.pos = c.pos + (x :: w).length := by
      rw [pos, List.length_cons]
      dsimp only
      omega
    have last : d.before = (x :: w).getLast?.or c.before := by
      rw [before, List.getLast?_cons]
      cases w.getLast? <;> rfl
    refine ⟨d, ?_, position, left, last, groups, late⟩
    cases w with
    | nil =>
      obtain rfl := List.mem_singleton.mp (one ▸ List.mem_singleton_self d)
      exact first
    | cons y w =>
      rw [List.map_cons, List.map_cons, seqs, reach, first, List.flatMap_singleton,
        ← List.map_cons, one]
      rfl

theorem rest_of_mem_chars (w : List Char) (hd : d ∈ reach (seqs (w.map char)) c) :
    c.rest = w ++ d.rest := by
  induction w generalizing c with
  | nil =>
    obtain rfl := List.mem_singleton.mp hd
    rfl
  | cons x w ih =>
    cases w with
    | nil => exact rest_of_mem_char hd
    | cons y w =>
      obtain ⟨e, he, hd⟩ := exists_of_mem_seq hd
      rw [rest_of_mem_char he, ih hd]
      rfl

theorem rest_of_mem_lit {s : String} (hd : d ∈ reach (lit s) c) : c.rest = s.toList ++ d.rest :=
  rest_of_mem_chars s.toList hd

theorem contains_once_chars (w : List Char) : (seqs (w.map char)).contains isOnce = false := by
  induction w with
  | nil => rfl
  | cons x w ih =>
    cases w with
    | nil => rfl
    | cons y w =>
      rw [List.map_cons] at ih
      rw [List.map_cons, List.map_cons, seqs, contains, ih]
      rfl

theorem matchAt?_lit (s : String) (back : List Char) :
    (lit s).matchAt? (s.toList ++ back) = some ⟨s.toList.length, []⟩ := by
  have fixed : (lit s).dependsOnDelay = false := by
    rw [dependsOnDelay, lit, contains_once_chars, Bool.false_and]
  obtain ⟨d, one, pos, -, -, groups, -⟩ :=
    reach_chars s.toList (c := .atStart (s.toList ++ back) false) rfl
  rw [matchAt?_eq fixed, lit, one, List.head?_cons, Option.map_some, groups, pos]
  exact congrArg (fun n => some (Match.mk n [])) (Nat.zero_add _)

theorem matchAt?_char (x : Char) (cs : List Char) :
    (char x).matchAt? (x :: cs) = some ⟨1, []⟩ := by
  rw [matchAt?_eq rfl]
  simp [Pattern.char, reach, Cursor.step, Cursor.atStart]

theorem matchAt?_one (x : Char) (cs : List Char) :
    (one accepts).matchAt? (x :: cs) = if accepts x then some ⟨1, []⟩ else none := by
  rw [matchAt?_eq rfl]
  by_cases ok : accepts x = true
  · simp [reach, Cursor.step, Cursor.atStart, ok]
  · simp [reach, Cursor.step, Cursor.atStart, ok]

theorem mem_reach_alts {ps : List Pattern} : d ∈ reach (alts ps) c ↔ ∃ p ∈ ps, d ∈ reach p c := by
  induction ps with
  | nil => cases rest : c.rest <;> simp [alts, never, reach, Cursor.step, rest]
  | cons p ps ih =>
    cases ps with
    | nil => simp [alts]
    | cons q ps => rw [alts, reach, List.mem_append, ih, List.exists_mem_cons_iff (a := p)]

theorem contains_once_alts {ps : List Pattern} (h : ∀ p ∈ ps, p.contains isOnce = false) :
    (alts ps).contains isOnce = false := by
  induction ps with
  | nil => rfl
  | cons p ps ih =>
    obtain ⟨here, later⟩ := List.forall_mem_cons.mp h
    cases ps with
    | nil => exact here
    | cons q ps =>
      rw [alts, contains, here, ih later]
      rfl

theorem dependsOnDelay_keyword (ws : List String) : (keyword ws).dependsOnDelay = false := by
  have never : (alts (ws.map lit)).contains isOnce = false :=
    contains_once_alts (List.forall_mem_map.mpr fun s _ => contains_once_chars s.toList)
  rw [dependsOnDelay, keyword, contains, never]
  rfl

theorem reach_wordBoundary (late : c.late = false) :
    reach .wordBoundary c = if c.atWordBoundary then [c] else [] := by
  have stays : c.cross = c := by simp [Cursor.cross, late]
  rw [reach, stays]

theorem stops_dropWhile (accepts : Char → Bool) (cs : List Char) (x : Char)
    (first : (cs.dropWhile accepts).head? = some x) : accepts x = false := by
  have := List.head?_dropWhile_not accepts cs
  simpa [first] using this

theorem not_any_dropWhile (accepts : Char → Bool) (cs : List Char) :
    (cs.dropWhile accepts).head?.any accepts = false := by
  cases first : (cs.dropWhile accepts).head? with
  | none => rfl
  | some x => exact stops_dropWhile accepts cs x first

theorem takeWhile_word {w : List Char} (word : ∀ c ∈ w, Text.isWord c = true)
    (stops : back.head?.any Text.isWord = false) : (w ++ back).takeWhile Text.isWord = w := by
  have none : back.takeWhile Text.isWord = [] := by
    cases back with
    | nil => rfl
    | cons c back => exact List.takeWhile_cons_of_neg (by simpa using stops)
  rw [List.takeWhile_append_of_pos word, none, List.append_nil]

/-- One of several words is matched where it is all the word characters at the beginning. -/
theorem matchAt?_keyword {ws : List String}
    (words : ∀ s ∈ ws, s ≠ "" ∧ ∀ c ∈ s.toList, Text.isWord c = true) (cs : List Char) :
    (keyword ws).matchAt? cs =
      if String.ofList (cs.takeWhile Text.isWord) ∈ ws then
        some ⟨(cs.takeWhile Text.isWord).length, []⟩
      else none := by
  let start : Cursor := .atStart cs false
  have reached : ∀ d ∈ reach (alts (ws.map lit)) start, ∃ s ∈ ws, cs = s.toList ++ d.rest ∧
      d.pos = s.toList.length ∧ d.groups = [] ∧
        reach .wordBoundary d = if d.rest.head?.any Text.isWord then [] else [d] := by
    intro d hd
    obtain ⟨p, hp, hd⟩ := mem_reach_alts.mp hd
    obtain ⟨s, hs, rfl⟩ := List.mem_map.mp hp
    have rest : cs = s.toList ++ d.rest := rest_of_mem_lit hd
    obtain ⟨e, one, pos, -, before, groups, late⟩ := reach_chars s.toList (c := start) rest
    obtain rfl := List.mem_singleton.mp (one ▸ hd)
    obtain ⟨filled, word⟩ := words s hs
    have chars : s.toList ≠ [] := fun none => filled (String.toList_injective none)
    have behind : d.before.any Text.isWord = true := by
      rw [before, List.getLast?_eq_some_getLast chars]
      exact word _ (List.getLast_mem chars)
    refine ⟨s, hs, rest, pos.trans (Nat.zero_add _), groups, ?_⟩
    rw [reach_wordBoundary late, Cursor.atWordBoundary, behind]
    cases d.rest.head?.any Text.isWord <;> rfl
  have whole : ∀ d ∈ reach (alts (ws.map lit)) start, ∀ e,
      (reach .wordBoundary d).head? = some e → String.ofList (cs.takeWhile Text.isWord) ∈ ws ∧
        e.pos = (cs.takeWhile Text.isWord).length ∧ e.groups = [] := by
    intro d hd e he
    obtain ⟨s, hs, rest, pos, groups, boundary⟩ := reached d hd
    rw [boundary] at he
    split at he
    · cases he
    · rename_i stops
      obtain rfl := Option.some.inj he
      rw [rest, takeWhile_word (words s hs).2 (by simpa using stops), String.ofList_toList]
      exact ⟨hs, pos, groups⟩
  rw [matchAt?_eq (dependsOnDelay_keyword ws), keyword, head?_reach_seq]
  cases found : (reach (alts (ws.map lit)) start).findSome? fun d =>
      (reach .wordBoundary d).head? with
  | some e =>
    obtain ⟨d, hd, he⟩ := List.exists_of_findSome?_eq_some found
    obtain ⟨listed, pos, groups⟩ := whole d hd e he
    rw [if_pos listed, Option.map_some, pos, groups]
  | none =>
    refine (if_neg fun listed => ?_).symm
    have split : cs = (String.ofList (cs.takeWhile Text.isWord)).toList ++
        cs.dropWhile Text.isWord := by
      rw [String.toList_ofList, List.takeWhile_append_dropWhile]
    obtain ⟨d, one, -, left, -, -, -⟩ := reach_chars _ (c := start) split
    have hd : d ∈ reach (alts (ws.map lit)) start :=
      mem_reach_alts.mpr ⟨_, List.mem_map_of_mem listed, one ▸ List.mem_singleton_self d⟩
    obtain ⟨-, -, -, -, -, boundary⟩ := reached d hd
    have stops : d.rest.head?.any Text.isWord = false := by
      rw [left]
      exact not_any_dropWhile Text.isWord cs
    have missed := List.findSome?_eq_none_iff.mp found d hd
    rw [boundary, stops] at missed
    cases missed

theorem step_of_accepted (c : Cursor) (x : Char) (cs : List Char) (rest : c.rest = x :: cs)
    (ok : accepts x = true) :
    reach (one accepts) c = [⟨c.pos + 1, some x, cs, c.groups, [], c.late⟩] := by
  simp [reach, Cursor.step, rest, ok]

theorem step_of_stop (stops : ∀ x, back.head? = some x → accepts x = false) (c : Cursor)
    (rest : c.rest = back) : reach (one accepts) c = [] := by
  rw [reach, Cursor.step, rest]
  cases back with
  | nil => rfl
  | cons x cs => exact if_neg (by simp [stops x rfl])

theorem exists_runs {body : Pattern} (all : ∀ x ∈ front, accepts x = true)
    (on : ∀ (c : Cursor) x cs, c.rest = x :: cs → accepts x = true →
      reach body c = [⟨c.pos + 1, some x, cs, c.groups, [], c.late⟩])
    (stops : ∀ c : Cursor, c.rest = back → reach body c = []) (rest : c.rest = front ++ back) :
    ∃ d, Runs body c front d ∧ d.rest = back := by
  induction front generalizing c with
  | nil => exact ⟨c, .stop (stops c rest), rest⟩
  | cons x front ih =>
    obtain ⟨ok, later⟩ := List.forall_mem_cons.mp all
    obtain ⟨d, runs, left⟩ :=
      ih later (c := ⟨c.pos + 1, some x, front ++ back, c.groups, [], c.late⟩) rfl
    have first : Covers body c [x] [] ⟨c.pos + 1, some x, front ++ back, c.groups, [], c.late⟩ :=
      ⟨congrArg List.head? (on c x _ rest ok), rest, rfl, rfl, rfl⟩
    exact ⟨d, .step first (List.cons_ne_nil x []) runs, left⟩

theorem head?_reach_many {body : Pattern} (all : ∀ x ∈ front, accepts x = true)
    (on : ∀ (c : Cursor) x cs, c.rest = x :: cs → accepts x = true →
      reach body c = [⟨c.pos + 1, some x, cs, c.groups, [], c.late⟩])
    (stops : ∀ c : Cursor, c.rest = back → reach body c = []) (late : c.late = false)
    (rest : c.rest = front ++ back) :
    ∃ d, (reach (many body) c).head? = some d ∧ d.pos = c.pos + front.length ∧
      d.rest = back ∧ d.groups = c.groups := by
  obtain ⟨d, runs, left⟩ := exists_runs all on stops rest
  exact ⟨d, (runs.many late).first, runs.pos, left, runs.groups⟩

theorem exists_mem_closure (all : ∀ x ∈ front, accepts x = true) (late : c.late = false)
    (rest : c.rest = front ++ back) {fuel : List Char} {f : Found}
    (enough : front.length < fuel.length) (fresh : ∀ k, c.pos ≤ k → f.seen.has k = false) :
    ∃ d ∈ (closure (reach (one accepts)) true fuel f c).cursors,
      d.rest = back ∧ d.late = false := by
  have key : c.key = c.pos := by simp [Cursor.key, late]
  have unseen : f.seen.has c.key = false := fresh _ (Nat.le_of_eq key.symm)
  induction front generalizing c fuel f with
  | nil =>
    cases fuel with
    | nil => cases enough
    | cons _ fuel =>
      rw [closure, unseen]
      exact ⟨c, List.mem_cons_self, rest, late⟩
  | cons x front ih =>
    obtain ⟨ok, later⟩ := List.forall_mem_cons.mp all
    cases fuel with
    | nil => cases enough
    | cons _ fuel =>
      have fresh' (k : Nat) (hk : c.pos + 1 ≤ k) : (f.meet c).seen.has k = false := by
        have unseen := fresh k (by omega)
        have other : c.pos ≠ k := by omega
        simp [Found.meet, Seen.has_add, key, unseen, other]
      obtain ⟨d, found, left⟩ :=
        ih later (c := ⟨c.pos + 1, some x, front ++ back, c.groups, [], c.late⟩) late rfl
          (Nat.lt_of_succ_lt_succ enough) fresh' (by simp [Cursor.key, late])
          (fresh' _ (by simp [Cursor.key, late]))
      rw [closure, unseen, step_of_accepted c x _ rest ok]
      exact ⟨d, List.mem_cons_of_mem c found, left⟩

/-- A repetition may stop behind any number of the characters that it accepts. -/
theorem exists_mem_many (all : ∀ x ∈ front, accepts x = true) (late : c.late = false)
    (rest : c.rest = front ++ back) :
    ∃ d ∈ reach (many (one accepts)) c, d.rest = back ∧ d.late = false := by
  have enough : front.length < c.fuel.length := by
    simp only [Cursor.fuel, late, rest, Bool.false_eq_true, if_false, List.length_cons,
      List.length_append]
    omega
  obtain ⟨d, found, left⟩ :=
    exists_mem_closure all late rest enough (f := .nothing) fun k _ => Nat.zero_testBit k
  exact ⟨d, List.mem_reverse.mpr found, left⟩

theorem exists_covers_many (all : ∀ x ∈ front, accepts x = true)
    (stops : ∀ x, back.head? = some x → accepts x = false) (late : c.late = false)
    (rest : c.rest = front ++ back) :
    ∃ d, Covers (many (one accepts)) c front [] d ∧ d.rest = back := by
  obtain ⟨d, runs, left⟩ := exists_runs all step_of_accepted (step_of_stop stops) rest
  exact ⟨d, runs.many late, left⟩

theorem exists_covers_many1 (all : ∀ x ∈ front, accepts x = true)
    (stops : ∀ x, back.head? = some x → accepts x = false) (filled : front ≠ [])
    (late : c.late = false) (rest : c.rest = front ++ back) :
    ∃ d, Covers (many1 (one accepts)) c front [] d ∧ d.rest = back := by
  obtain ⟨x, front, rfl⟩ := List.exists_cons_of_ne_nil filled
  obtain ⟨ok, later⟩ := List.forall_mem_cons.mp all
  obtain ⟨d, first⟩ := Covers.one rest ok
  obtain ⟨e, runs, left⟩ := exists_runs later step_of_accepted (step_of_stop stops)
    (List.cons.inj (first.rest.symm.trans rest)).2
  exact ⟨e, Runs.many1 first runs late, left⟩

theorem rest_of_mem_many (hd : d ∈ reach (many (one accepts)) c) :
    ∃ front, (∀ x ∈ front, accepts x = true) ∧ c.rest = front ++ d.rest := by
  refine forall_mem_reach_loop
    (P := fun d => ∃ front, (∀ x ∈ front, accepts x = true) ∧ c.rest = front ++ d.rest) ?_ ?_ d hd
  · intro d hd
    obtain rfl := List.mem_singleton.mp hd
    exact ⟨[], fun _ => nofun, rfl⟩
  · rintro d ⟨front, all, rest⟩ e he
    obtain ⟨x, cs, ok, here, left⟩ := rest_of_mem_one he
    refine ⟨front ++ [x], ?_, ?_⟩
    · exact List.forall_mem_append.mpr ⟨all, List.forall_mem_singleton.mpr ok⟩
    · rw [rest, here, left, List.append_assoc]
      rfl

theorem rest_of_mem_many1 (hd : d ∈ reach (many1 (one accepts)) c) :
    ∃ x front, accepts x = true ∧ (∀ y ∈ front, accepts y = true) ∧
      c.rest = x :: front ++ d.rest := by
  refine forall_mem_reach_loop (P := fun d => ∃ x front, accepts x = true ∧
    (∀ y ∈ front, accepts y = true) ∧ c.rest = x :: front ++ d.rest) ?_ ?_ d hd
  · intro d hd
    obtain ⟨x, cs, ok, here, left⟩ := rest_of_mem_one hd
    exact ⟨x, [], ok, fun _ => nofun, by rw [here, left]; rfl⟩
  · rintro d ⟨y, front, first, all, rest⟩ e he
    obtain ⟨x, cs, ok, here, left⟩ := rest_of_mem_one he
    refine ⟨y, front ++ [x], first, ?_, ?_⟩
    · exact List.forall_mem_append.mpr ⟨all, List.forall_mem_singleton.mpr ok⟩
    · rw [rest, here, left]
      simp

theorem matchAt?_many1 (all : ∀ x ∈ front, accepts x = true)
    (stops : ∀ x, back.head? = some x → accepts x = false) (filled : front ≠ []) :
    (many1 (one accepts)).matchAt? (front ++ back) = some ⟨front.length, []⟩ := by
  obtain ⟨d, covers, -⟩ := exists_covers_many1 all stops filled
    (c := .atStart (front ++ back) false) rfl rfl
  rw [matchAt?_eq rfl, covers.first, Option.map_some, covers.groups, covers.pos]
  simp [Cursor.atStart]

theorem matchAt?_many1_cons (ok : accepts x = true) (cs : List Char) :
    (many1 (one accepts)).matchAt? (x :: cs) =
      some ⟨((x :: cs).takeWhile accepts).length, []⟩ := by
  have found := matchAt?_many1 (List.all_eq_true.mp (List.all_takeWhile (l := x :: cs)))
    (stops_dropWhile accepts (x :: cs)) (by simp [ok])
  rwa [List.takeWhile_append_dropWhile] at found

/-- A reluctant repetition goes on, one character at a time, to the first place from which the
pattern behind it leads on. -/
theorem through_closure_few {body close : Pattern}
    (on : ∀ (c : Cursor) x cs, c.rest = x :: cs →
      reach body c = [⟨c.pos + 1, some x, cs, c.groups, [], c.late⟩])
    (stuck : ∀ (c : Cursor) w, w ≠ [] → w <:+ front → c.rest = w ++ back → reach close c = [])
    (leads : ∀ c : Cursor, c.rest = back → reach close c ≠ []) {fuel : List Char} {f : Found}
    (late : c.late = false) (rest : c.rest = front ++ back) (enough : front.length < fuel.length)
    (fresh : ∀ k, c.pos ≤ k → f.seen.has k = false) (missed : f.through close = none) :
    ∃ d e, (closure (reach body) false fuel f c).through close = some e ∧
      (reach close d).head? = some e ∧ d.pos = c.pos + front.length ∧ d.rest = back ∧
        d.groups = c.groups := by
  have key : c.key = c.pos := by simp [Cursor.key, late]
  have entered : ((f.meet c).add c).through close = (reach close c).head? := by
    rw [through_add]
    exact congrArg (Option.or · _) missed
  induction front generalizing c fuel f with
  | nil =>
    cases fuel with
    | nil => cases enough
    | cons _ fuel =>
      obtain ⟨e, es, found⟩ := List.exists_cons_of_ne_nil (leads c rest)
      rw [closure, key, fresh c.pos (Nat.le_refl _)]
      simp only [Bool.false_eq_true, if_false]
      refine ⟨c, e, ?_, by rw [found]; rfl, rfl, rest, rfl⟩
      refine through_of_suffix (suffix_foldl_closure (suffix_closure _ _ _) _ _) ?_
      rw [entered, found]
      rfl
  | cons x front ih =>
    cases fuel with
    | nil => cases enough
    | cons _ fuel =>
      have missed' : ((f.meet c).add c).through close = none := by
        rw [entered, stuck c (x :: front) (List.cons_ne_nil x front) List.suffix_rfl rest]
        rfl
      have fresh' (k : Nat) (hk : c.pos + 1 ≤ k) : ((f.meet c).add c).seen.has k = false := by
        have unseen := fresh k (by omega)
        have other : c.pos ≠ k := by omega
        simp [Found.add, Found.meet, Seen.has_add, key, unseen, other]
      obtain ⟨d, e, through, closes, pos, left, groups⟩ :=
        ih (c := ⟨c.pos + 1, some x, front ++ back, c.groups, [], c.late⟩)
          (fun c w filled hw => stuck c w filled (hw.trans (List.suffix_cons x front))) late rfl
          (Nat.lt_of_succ_lt_succ enough) fresh' missed' (by simp [Cursor.key, late])
          (by rw [through_add]; exact congrArg (Option.or · _) missed')
      refine ⟨d, e, ?_, closes, ?_, left, groups⟩
      · rw [closure, key, fresh c.pos (Nat.le_refl _), on c x _ rest]
        simpa using through
      · rw [pos, List.length_cons]
        dsimp only
        omega

/-- A stretch is passed up to the first place from which the pattern behind it leads on. -/
theorem exists_head?_reach_few {body close : Pattern}
    (on : ∀ (c : Cursor) x cs, c.rest = x :: cs →
      reach body c = [⟨c.pos + 1, some x, cs, c.groups, [], c.late⟩])
    (stuck : ∀ (c : Cursor) w, w ≠ [] → w <:+ front → c.rest = w ++ back → reach close c = [])
    (leads : ∀ c : Cursor, c.rest = back → reach close c ≠ []) (late : c.late = false)
    (rest : c.rest = front ++ back) :
    ∃ d e, (reach (seq (few body) close) c).head? = some e ∧ (reach close d).head? = some e ∧
      d.pos = c.pos + front.length ∧ d.rest = back ∧ d.groups = c.groups := by
  have enough : front.length < c.fuel.length := by
    simp only [Cursor.fuel, late, rest, Bool.false_eq_true, if_false, List.length_cons,
      List.length_append]
    omega
  rw [head?_reach_few]
  exact through_closure_few on stuck leads late rest enough (fun k _ => Nat.zero_testBit k) rfl

theorem rest_of_mem_upTo {n : Nat} (hd : d ∈ reach (upTo true (one accepts) n) c) :
    ∃ front, front.length ≤ n ∧ (∀ x ∈ front, accepts x = true) ∧ c.rest = front ++ d.rest := by
  induction n generalizing c with
  | zero =>
    obtain rfl := List.mem_singleton.mp hd
    exact ⟨[], Nat.le_refl 0, fun _ => nofun, rfl⟩
  | succ n ih =>
    have either : d ∈ reach (seq (one accepts) (upTo true (one accepts) n)) c ∨ d = c := by
      simpa [upTo, reach] using hd
    rcases either with further | rfl
    · obtain ⟨e, he, hd⟩ := exists_of_mem_seq further
      obtain ⟨x, cs, ok, rest, left⟩ := rest_of_mem_one he
      obtain ⟨front, short, all, split⟩ := ih hd
      refine ⟨x :: front, Nat.succ_le_succ short, List.forall_mem_cons.mpr ⟨ok, all⟩, ?_⟩
      rw [rest, ← left, split]
      rfl
    · exact ⟨[], Nat.zero_le _, fun _ => nofun, rfl⟩

/-- A character that is neither accepted nor a part of words is no different from the end of the
subject. -/
theorem reach_extend_of_avoids (h : p.avoids x = true) (apart : Text.isWord x = false)
    (more : List Char) (late : c.late = false) :
    reach p (c.extend (x :: more)) = (reach p c).map (Cursor.extend (x :: more)) ∧
      ∀ d ∈ reach p c, d.late = false := by
  induction p generalizing c with
  | empty => exact ⟨rfl, List.forall_mem_singleton.mpr late⟩
  | one accepts =>
    have rejected : accepts x = false := by simpa [avoids] using h
    cases rest : c.rest with
    | nil => simp [reach, Cursor.step, Cursor.extend, rest, rejected]
    | cons y cs =>
      by_cases ok : accepts y = true
      · simp [reach, Cursor.step, Cursor.extend, rest, ok, late]
      · simp [reach, Cursor.step, Cursor.extend, rest, ok]
  | start =>
    have here : (c.extend (x :: more)).pos = c.pos := rfl
    rw [reach, reach, here]
    split
    · exact ⟨rfl, List.forall_mem_singleton.mpr late⟩
    · exact ⟨rfl, List.forall_mem_nil _⟩
  | stop => cases h
  | wordBoundary =>
    have here : (c.extend (x :: more)).atWordBoundary = c.atWordBoundary := by
      cases rest : c.rest <;> simp [Cursor.atWordBoundary, Cursor.extend, rest, apart]
    rw [reach_wordBoundary late, reach_wordBoundary (c := c.extend (x :: more)) late, here]
    split
    · exact ⟨rfl, List.forall_mem_singleton.mpr late⟩
    · exact ⟨rfl, List.forall_mem_nil _⟩
  | once place => cases h
  | seq p q ihp ihq =>
    obtain ⟨hp, hq⟩ := Bool.and_eq_true_iff.mp h
    obtain ⟨same, reached⟩ := ihp hp late
    refine ⟨reach_seq_extend same fun d hd => (ihq hq (reached d hd)).1, fun d hd => ?_⟩
    obtain ⟨e, he, hd⟩ := exists_of_mem_seq hd
    exact (ihq hq (reached e he)).2 d hd
  | alt p q ihp ihq =>
    obtain ⟨hp, hq⟩ := Bool.and_eq_true_iff.mp h
    obtain ⟨samep, reachedp⟩ := ihp hp late
    obtain ⟨sameq, reachedq⟩ := ihq hq late
    refine ⟨by rw [reach, reach, samep, sameq, List.map_append], fun d hd => ?_⟩
    exact (List.mem_append.mp hd).elim (reachedp d) (reachedq d)
  | group index p ih =>
    obtain ⟨same, reached⟩ := ih h late
    refine ⟨?_, List.forall_mem_map.mpr reached⟩
    rw [reach, reach, same, List.map_map, List.map_map]
    rfl
  | optional greedy p ih =>
    obtain ⟨same, reached⟩ := ih h late
    cases greedy with
    | true => exact ⟨by simp [reach, same], List.forall_mem_append.mpr
        ⟨reached, List.forall_mem_singleton.mpr late⟩⟩
    | false => exact ⟨by simp [reach, same], List.forall_mem_cons.mpr ⟨late, reached⟩⟩
  | loop greedy p q ihp ihq =>
    obtain ⟨both, consumes⟩ := Bool.and_eq_true_iff.mp h
    obtain ⟨hp, hq⟩ := Bool.and_eq_true_iff.mp both
    obtain ⟨same, reached⟩ := ihp hp late
    let Any : List Char → Prop := fun _ => True
    have known : ∀ d ∈ reach p c, d.late = false ∧ Any d.rest :=
      fun d hd => ⟨reached d hd, trivial⟩
    refine ⟨reach_loop_extend late same known
      (fun d hd => ⟨(ihq hq hd.1).1, fun e he => ?_⟩) greedy,
      forall_mem_reach_loop reached fun d hd => (ihq hq hd).2⟩
    exact ⟨⟨(ihq hq hd.1).2 e he, trivial⟩, length_lt_of_consumes consumes he⟩

theorem matchAt?_append_of_avoids (h : p.avoids x = true) (apart : Text.isWord x = false)
    (cs more : List Char) : p.matchAt? (cs ++ x :: more) = p.matchAt? cs := by
  have fixed := dependsOnDelay_of_avoids h
  have longer : Cursor.atStart (cs ++ x :: more) false =
      (Cursor.atStart cs false).extend (x :: more) := rfl
  rw [matchAt?_eq fixed, matchAt?_eq fixed, longer, (reach_extend_of_avoids h apart more rfl).1,
    List.head?_map, Option.map_map]
  rfl

end HybridTemplate.Pattern
