import HybridTemplate.Proofs.Token.Tiling

set_option autoImplicit false

namespace HybridTemplate.Token

/-- The category of each byte that the tokens cover, in order. -/
def bytewise (ts : List Token) : List Category :=
  ts.flatMap fun t => List.replicate t.text.utf8ByteSize t.category

@[simp] theorem bytewise_nil : bytewise [] = [] := rfl

@[simp] theorem bytewise_cons (t : Token) (ts : List Token) :
    bytewise (t :: ts) = List.replicate t.text.utf8ByteSize t.category ++ bytewise ts := rfl

@[simp] theorem bytewise_append (ts us : List Token) :
    bytewise (ts ++ us) = bytewise ts ++ bytewise us := List.flatMap_append

@[simp] theorem bytewise_shift (n : Nat) (ts : List Token) :
    bytewise (ts.map (·.shift n)) = bytewise ts := by
  rw [bytewise, bytewise, List.flatMap_map]
  rfl

theorem length_bytewise (ts : List Token) :
    (bytewise ts).length = (concat ts).utf8ByteSize := by
  induction ts with
  | nil => rfl
  | cons t ts ih => rw [bytewise_cons, List.length_append, List.length_replicate, ih, concat_cons,
      String.utf8ByteSize_append]

theorem bytewise_prepend (t : Token) (ts : List Token) :
    bytewise (t.prepend ts) = bytewise (t :: ts) := by
  unfold prepend
  split
  · rename_i void
    simp [void]
  · cases ts with
    | nil => rfl
    | cons s ts =>
      by_cases same : t.category = s.category
      · simp [same, String.utf8ByteSize_append, ← List.replicate_append_replicate]
      · simp [same]

theorem bytewise_coalesce (ts : List Token) : bytewise (coalesce ts) = bytewise ts := by
  induction ts with
  | nil => rfl
  | cons t ts ih =>
    rw [bytewise_cons, ← ih, ← bytewise_cons]
    exact bytewise_prepend t (coalesce ts)

theorem category_mem_bytewise {t : Token} {ts : List Token} (h : t ∈ ts) (filled : t.text ≠ "") :
    t.category ∈ bytewise ts := by
  have size : t.text.utf8ByteSize ≠ 0 := by simpa using filled
  exact List.mem_flatMap.mpr ⟨t, h, List.mem_replicate.mpr ⟨size, rfl⟩⟩

theorem takeWhile_bytewise {t : Token} {ts : List Token} (filled : ∀ u ∈ ts, u.text ≠ "")
    (apart : (t :: ts).IsChain fun s u => s.category ≠ u.category) :
    (bytewise (t :: ts)).takeWhile (· = t.category) =
      List.replicate t.text.utf8ByteSize t.category := by
  have own : ∀ k ∈ List.replicate t.text.utf8ByteSize t.category, decide (k = t.category) = true :=
    fun k hk => decide_eq_true (List.eq_of_mem_replicate hk)
  have behind : (bytewise ts).takeWhile (· = t.category) = [] := by
    cases ts with
    | nil => rfl
    | cons u us =>
      have size : u.text.utf8ByteSize ≠ 0 := by simpa using filled u List.mem_cons_self
      obtain ⟨n, size⟩ := Nat.exists_eq_succ_of_ne_zero size
      have other : u.category ≠ t.category := (List.isChain_cons_cons.mp apart).1.symm
      rw [bytewise_cons, size, List.replicate_succ]
      exact List.takeWhile_cons_of_neg (by simpa using other)
  rw [bytewise_cons, List.takeWhile_append_of_pos own, behind, List.append_nil]

theorem bytewise_cons_ne_nil {t : Token} (filled : t.text ≠ "") (ts : List Token) :
    bytewise (t :: ts) ≠ [] := by
  have size : t.text.utf8ByteSize ≠ 0 := by simpa using filled
  simp [size]

theorem head?_bytewise {t : Token} (filled : t.text ≠ "") (ts : List Token) :
    (bytewise (t :: ts)).head? = some t.category := by
  have size : t.text.utf8ByteSize ≠ 0 := by simpa using filled
  obtain ⟨n, size⟩ := Nat.exists_eq_succ_of_ne_zero size
  rw [bytewise_cons, size, List.replicate_succ]
  rfl

/-- Tilings without empty tokens in which neighbours differ in category are known from the
category of each byte. -/
theorem Tiles.eq_of_bytewise {offset : Nat} {s : String} {ts us : List Token}
    (ht : Tiles offset s ts) (hu : Tiles offset s us) (filled : ∀ t ∈ ts, t.text ≠ "")
    (filled' : ∀ u ∈ us, u.text ≠ "") (apart : ts.IsChain fun t u => t.category ≠ u.category)
    (apart' : us.IsChain fun t u => t.category ≠ u.category)
    (same : bytewise ts = bytewise us) : ts = us := by
  induction ts generalizing offset s us with
  | nil =>
    cases us with
    | nil => rfl
    | cons u us =>
      exact absurd same.symm (bytewise_cons_ne_nil (filled' u List.mem_cons_self) us)
  | cons t ts ih =>
    obtain ⟨here, later⟩ := List.forall_mem_cons.mp filled
    cases us with
    | nil => exact absurd same (bytewise_cons_ne_nil here ts)
    | cons u us =>
      obtain ⟨here', later'⟩ := List.forall_mem_cons.mp filled'
      have category : t.category = u.category := by
        have first := congrArg List.head? same
        rw [head?_bytewise here, head?_bytewise here'] at first
        exact Option.some.inj first
      have size : t.text.utf8ByteSize = u.text.utf8ByteSize := by
        have first := takeWhile_bytewise later apart
        rw [same, category, takeWhile_bytewise later' apart'] at first
        simpa using (congrArg List.length first).symm
      obtain ⟨⟨first, behind⟩, whole⟩ := ht
      obtain ⟨⟨first', behind'⟩, whole'⟩ := hu
      have joined := congrArg String.toByteArray (whole.trans whole'.symm)
      rw [concat_cons, concat_cons, String.toByteArray_append, String.toByteArray_append] at joined
      have text : t.text = u.text :=
        String.toByteArray_inj.mp (ByteArray.append_inj_left joined size)
      have token : t = u := by
        cases t
        cases u
        simp_all
      have rest : concat ts = concat us := by
        rw [← whole', concat_cons, concat_cons, text] at whole
        exact (String.append_right_inj _).mp whole
      have bytes : bytewise ts = bytewise us := by
        rw [bytewise_cons, bytewise_cons, token] at same
        exact List.append_cancel_left same
      rw [ih ⟨behind, rfl⟩ ⟨token ▸ behind', rest.symm⟩ later later' apart.tail apart'.tail bytes,
        token]

end HybridTemplate.Token
