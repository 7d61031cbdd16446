import HybridTemplate.Token
import Mathlib.Data.List.Chain

set_option autoImplicit false

namespace HybridTemplate.Token

/-- Each token begins where the one before ends, the first at the offset. -/
def Contiguous : (offset : Nat) → List Token → Prop
  | _, [] => True
  | offset, t :: ts => t.offset = offset ∧ Contiguous t.stop ts

def concat (ts : List Token) : String := String.join (ts.map text)

structure Tiles (offset : Nat) (text : String) (ts : List Token) : Prop where
  contiguous : Contiguous offset ts
  concat_eq : concat ts = text

@[simp] theorem concat_nil : concat [] = "" := String.join_nil

@[simp] theorem concat_cons (t : Token) (ts : List Token) :
    concat (t :: ts) = t.text ++ concat ts := String.join_cons

@[simp] theorem concat_append (ts us : List Token) :
    concat (ts ++ us) = concat ts ++ concat us := by
  simp [concat, String.join_append]

theorem contiguous_append (offset : Nat) (ts us : List Token) :
    Contiguous offset (ts ++ us) ↔
      Contiguous offset ts ∧ Contiguous (offset + (concat ts).utf8ByteSize) us := by
  induction ts generalizing offset with
  | nil => simp [Contiguous]
  | cons t ts ih =>
    have reach (h : t.offset = offset) :
        t.stop + (concat ts).utf8ByteSize = offset + (concat (t :: ts)).utf8ByteSize := by
      rw [concat_cons, String.utf8ByteSize_append, stop, h]
      omega
    simp only [List.cons_append, Contiguous, ih, and_assoc]
    constructor
    · rintro ⟨h, hts, hus⟩
      exact ⟨h, hts, reach h ▸ hus⟩
    · rintro ⟨h, hts, hus⟩
      exact ⟨h, hts, (reach h).symm ▸ hus⟩

namespace Tiles

theorem nil (offset : Nat) : Tiles offset "" [] := ⟨trivial, concat_nil⟩

theorem single (t : Token) : Tiles t.offset t.text [t] := ⟨⟨rfl, trivial⟩, by simp⟩

theorem append {offset : Nat} {s t : String} {ts us : List Token} (h : Tiles offset s ts)
    (k : Tiles (offset + s.utf8ByteSize) t us) : Tiles offset (s ++ t) (ts ++ us) := by
  refine ⟨(contiguous_append offset ts us).mpr ⟨h.contiguous, ?_⟩, ?_⟩
  · rw [h.concat_eq]
    exact k.contiguous
  · rw [concat_append, h.concat_eq, k.concat_eq]

theorem shift {offset : Nat} {s : String} {ts : List Token} (h : Tiles offset s ts) (n : Nat) :
    Tiles (n + offset) s (ts.map (·.shift n)) := by
  obtain ⟨h, rfl⟩ := h
  refine ⟨?_, by simp [concat, Token.shift, Function.comp_def]⟩
  induction ts generalizing offset with
  | nil => trivial
  | cons t ts ih =>
    obtain ⟨here, behind⟩ := h
    refine ⟨congrArg (n + ·) here, ?_⟩
    have moved : (t.shift n).stop = n + t.stop := Nat.add_assoc n t.offset _
    rw [moved]
    exact ih behind

/-- Every token of a tiling stands in the text where its offset says. -/
theorem split {offset : Nat} {s : String} {ts : List Token} (h : Tiles offset s ts) {t : Token}
    (ht : t ∈ ts) :
    ∃ before after, s = before ++ t.text ++ after ∧ t.offset = offset + before.utf8ByteSize := by
  obtain ⟨us, vs, rfl⟩ := List.append_of_mem ht
  have here := ((contiguous_append offset us _).mp h.contiguous).2.1
  refine ⟨concat us, concat vs, ?_, here⟩
  rw [← h.concat_eq, concat_append, concat_cons, String.append_assoc]

end Tiles

theorem tiles_prepend {offset : Nat} {s : String} {t : Token} {ts : List Token}
    (h : Tiles offset s (t :: ts)) : Tiles offset s (t.prepend ts) := by
  obtain ⟨⟨here, behind⟩, rfl⟩ := h
  unfold prepend
  split
  · rename_i void
    rw [stop, void, here] at behind
    exact ⟨behind, by simp [void]⟩
  · cases ts with
    | nil => exact ⟨⟨here, trivial⟩, rfl⟩
    | cons u us =>
      by_cases same : t.category = u.category
      · obtain ⟨next, behind⟩ := behind
        simp only [same, if_true]
        refine ⟨⟨here, ?_⟩, by simp [String.append_assoc]⟩
        have reach : stop ⟨t.offset, u.category, t.text ++ u.text⟩ = u.stop := by
          simp only [stop, String.utf8ByteSize_append] at next ⊢
          omega
        rw [reach]
        exact behind
      · simp only [same, if_false]
        exact ⟨⟨here, behind⟩, rfl⟩

theorem Tiles.coalesce {offset : Nat} {s : String} {ts : List Token} (h : Tiles offset s ts) :
    Tiles offset s (coalesce ts) := by
  induction ts generalizing offset s with
  | nil => exact h
  | cons t ts ih =>
    obtain ⟨⟨rfl, behind⟩, rfl⟩ := h
    have rest : Tiles t.stop (concat ts) (Token.coalesce ts) := ih ⟨behind, rfl⟩
    rw [concat_cons]
    exact tiles_prepend ((Tiles.single t).append rest)

theorem text_ne_of_mem_prepend {t u : Token} {ts : List Token} (h : ∀ v ∈ ts, v.text ≠ "")
    (hu : u ∈ t.prepend ts) : u.text ≠ "" := by
  unfold prepend at hu
  split at hu
  · exact h u hu
  · rename_i filled
    cases ts with
    | nil =>
      obtain rfl := List.mem_singleton.mp hu
      exact filled
    | cons s ss =>
      by_cases same : t.category = s.category
      · simp only [same, if_true] at hu
        rcases List.mem_cons.mp hu with rfl | later
        · simp [filled]
        · exact h u (List.mem_cons_of_mem s later)
      · simp only [same, if_false] at hu
        rcases List.mem_cons.mp hu with rfl | later
        · exact filled
        · exact h u later

theorem text_ne_of_mem_coalesce {t : Token} {ts : List Token} (h : t ∈ coalesce ts) :
    t.text ≠ "" := by
  induction ts generalizing t with
  | nil => simp [coalesce] at h
  | cons u us ih => exact text_ne_of_mem_prepend (fun _ hv => ih hv) h

theorem isChain_prepend {t : Token} {ts : List Token}
    (h : ts.IsChain fun s u => s.category ≠ u.category) :
    (t.prepend ts).IsChain fun s u => s.category ≠ u.category := by
  unfold prepend
  split
  · exact h
  · cases ts with
    | nil => exact .singleton t
    | cons s ss =>
      by_cases same : t.category = s.category
      · simp only [same, if_true]
        cases h with
        | singleton => exact .singleton _
        | cons_cons differs rest => exact .cons_cons differs rest
      · simp only [same, if_false]
        exact .cons_cons same h

theorem isChain_coalesce (ts : List Token) :
    (coalesce ts).IsChain fun s u => s.category ≠ u.category := by
  induction ts with
  | nil => exact .nil
  | cons t ts ih => exact isChain_prepend ih

end HybridTemplate.Token
