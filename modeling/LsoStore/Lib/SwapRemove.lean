import Mathlib.Data.List.Perm.Basic

/-!
# Removal by the last element

An element is taken out of an array by putting the last one in its place and
giving up the end. What stays is a rearrangement of the others.
-/

/-- The last element is written over. -/
theorem List.set_eq_dropLast_append {α : Type} {l : List α} {i : Nat} (h : i + 1 = l.length)
    (x : α) : l.set i x = l.dropLast ++ [x] := by
  rcases List.eq_nil_or_concat l with rfl | ⟨l', e, rfl⟩
  · cases h
  · rw [List.concat_eq_append, List.length_append, List.length_singleton] at h
    obtain rfl : i = l'.length := by omega
    rw [List.concat_eq_append, List.set_append_right _ _ (Nat.le_refl _), Nat.sub_self,
      List.set_cons_zero, List.dropLast_concat]

theorem List.perm_set_dropLast {α : Type} {l : List α} {i : Nat} {last x : α}
    (hlast : l.getLast? = some last) (hi : l[i]? = some x) :
    l.Perm (x :: (l.set i last).dropLast) := by
  rcases List.eq_nil_or_concat l with rfl | ⟨l', e, rfl⟩
  · cases hlast
  · rw [List.concat_eq_append] at *
    obtain rfl : e = last := by simpa using hlast
    rcases Nat.lt_or_ge i l'.length with hlt | hge
    · rw [List.getElem?_append_left hlt, List.getElem?_eq_getElem hlt] at hi
      injection hi with hi
      subst hi
      rw [List.set_append_left i e hlt, List.dropLast_concat]
      have hfront : (l' ++ [e]).Perm (l'[i] :: e :: l'.eraseIdx i) :=
        (List.perm_append_singleton e l').trans
          (((List.getElem_cons_eraseIdx_perm hlt).symm.cons e).trans (.swap ..))
      exact hfront.trans ((List.set_perm_cons_eraseIdx hlt e).symm.cons _)
    · rw [List.getElem?_append_right hge, List.getElem?_singleton] at hi
      split at hi
      · next hzero =>
          obtain rfl : i = l'.length := by omega
          injection hi with hi
          subst hi
          rw [List.set_append_right _ _ (Nat.le_refl _), Nat.sub_self, List.set_cons_zero,
            List.dropLast_concat]
          exact List.perm_append_singleton e l'
      · cases hi
