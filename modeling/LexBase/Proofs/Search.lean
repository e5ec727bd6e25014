import LexBase.Search

/-!
# Searches and lists

A search that pairs each answer with its index finds the head of the list of all answers, and says
where the tail begins. Where it stops depends only on which indices have an answer.
-/

namespace LexBase

set_option autoImplicit false

variable {α : Type} {f : Nat → Option α} {start count : Nat}

theorem filterMap_eq_nil_of_firstSome
    (h : firstSome (fun i => (f i).map fun a => (i, a)) start count = none) :
    (List.range' start count).filterMap f = [] := by
  rw [List.filterMap_eq_nil_iff]
  intro i hi
  obtain ⟨hle, hlt⟩ := List.mem_range'_1.mp hi
  have hat := firstSome_eq_none_iff.mp h (i - start) (by omega)
  rwa [Nat.add_sub_cancel' hle, Option.map_eq_none_iff] at hat

theorem filterMap_eq_cons_of_firstSome {o : Nat} {a : α}
    (h : firstSome (fun i => (f i).map fun a => (i, a)) start count = some (o, a)) :
    o < start + count ∧ f o = some a ∧
      (List.range' start count).filterMap f =
        a :: (List.range' (o + 1) (start + count - (o + 1))).filterMap f := by
  induction count generalizing start with
  | zero => simp [firstSome] at h
  | succ count ih =>
    rw [List.range'_succ]
    cases hf : f start with
    | some b =>
      simp only [firstSome, hf, Option.map_some, Option.some.injEq, Prod.mk.injEq] at h
      obtain ⟨rfl, rfl⟩ := h
      refine ⟨by omega, hf, ?_⟩
      rw [List.filterMap_cons_some hf]
      congr 3
      omega
    | none =>
      simp only [firstSome, hf, Option.map_none] at h
      obtain ⟨hlt, ho, hrest⟩ := ih h
      refine ⟨by omega, ho, ?_⟩
      rw [List.filterMap_cons_none hf, hrest]
      congr 3
      omega

theorem isSome_firstSome (f : Nat → Option α) (start count : Nat) :
    (firstSome (fun i => (f i).map fun a => (i, a)) start count).isSome =
      anyOf (fun i => (f i).isSome) start count := by
  induction count generalizing start with
  | zero => rfl
  | succ count ih =>
    cases hf : f start with
    | some a => simp only [firstSome, anyOf, hf, Option.map_some, Option.isSome_some, Bool.true_or]
    | none =>
      simp only [firstSome, anyOf, hf, Option.map_none, Option.isSome_none, Bool.false_or]
      exact ih (start + 1)

theorem map_fst_firstSome {β : Type} {g : Nat → Option β} (h : ∀ i, (g i).isSome = (f i).isSome)
    (start count : Nat) :
    (firstSome (fun i => (g i).map fun b => (i, b)) start count).map Prod.fst =
      (firstSome (fun i => (f i).map fun a => (i, a)) start count).map Prod.fst := by
  induction count generalizing start with
  | zero => rfl
  | succ count ih =>
    have hstart := h start
    cases hf : f start with
    | some a =>
      rw [hf, Option.isSome_some, Option.isSome_iff_exists] at hstart
      obtain ⟨b, hg⟩ := hstart
      simp only [firstSome, hf, hg, Option.map_some]
    | none =>
      rw [hf, Option.isSome_none, Option.isSome_eq_false_iff, Option.isNone_iff_eq_none] at hstart
      simp only [firstSome, hf, hstart, Option.map_none]
      exact ih (start + 1)

end LexBase
