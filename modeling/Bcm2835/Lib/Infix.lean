import Mathlib.Data.List.Infix

/-!
# Where a pattern begins

In a concatenation of pieces, an occurrence of a pattern begins inside one of
them (`Infix.begins`).
-/

namespace Infix

variable {α β : Type*}

/-- An occurrence of `pat` in `xs ++ ys` begins in one of the two. -/
theorem append {pat xs ys : List α} (h : pat <:+: xs ++ ys) :
    (∃ o < xs.length, pat <+: xs.drop o ++ ys) ∨ pat <:+: ys := by
  obtain ⟨pre, post, h⟩ := h
  rw [List.append_assoc] at h
  obtain hlt | hge := Nat.lt_or_ge pre.length xs.length
  · refine .inl ⟨pre.length, hlt, post, ?_⟩
    rw [← List.drop_append_of_le_length hlt.le, ← h, List.drop_left]
  · refine .inr ⟨pre.drop xs.length, post, ?_⟩
    have h := congrArg (List.drop xs.length) h
    rwa [List.drop_left, List.drop_append_of_le_length hge, ← List.append_assoc] at h

/-- An occurrence of `pat` in a concatenation, behind its first `n` items, begins inside a piece. -/
theorem begins_from (f : β → List α) {pat : List α} (hpat : pat ≠ []) :
    ∀ {xs : List β} {n : ℕ}, pat <:+: (xs.flatMap f).drop n →
      ∃ l x r, xs = l ++ x :: r ∧ ∃ o < (f x).length, n ≤ (l.flatMap f).length + o ∧
        pat <+: (f x).drop o ++ r.flatMap f := by
  intro xs
  induction xs with
  | nil =>
      intro n h
      rw [List.flatMap_nil, List.drop_nil] at h
      exact absurd (List.eq_nil_of_infix_nil h) hpat
  | cons x xs ih =>
      intro n h
      have hrest : ∀ {k}, n ≤ (f x).length + k → pat <:+: (xs.flatMap f).drop k →
          ∃ l y r, x :: xs = l ++ y :: r ∧ ∃ o < (f y).length, n ≤ (l.flatMap f).length + o ∧
            pat <+: (f y).drop o ++ r.flatMap f := by
        intro k hk h
        obtain ⟨l, y, r, rfl, o, ho, hno, hy⟩ := ih h
        refine ⟨x :: l, y, r, rfl, o, ho, ?_, hy⟩
        rw [List.flatMap_cons, List.length_append]
        omega
      rw [List.flatMap_cons] at h
      obtain hle | hgt := Nat.le_total n (f x).length
      · rw [List.drop_append_of_le_length hle] at h
        obtain ⟨o, ho, hx⟩ | hxs := append h
        · rw [List.length_drop] at ho
          rw [List.drop_drop] at hx
          exact ⟨[], x, xs, rfl, n + o, by omega, by simp, hx⟩
        · exact hrest (k := 0) hle hxs
      · rw [List.drop_append, List.drop_eq_nil_of_le hgt, List.nil_append] at h
        exact hrest (by omega) h

/-- An occurrence of `pat` in a concatenation begins inside a piece. -/
theorem begins (f : β → List α) {pat : List α} (hpat : pat ≠ []) {xs : List β}
    (h : pat <:+: xs.flatMap f) :
    ∃ l x r, xs = l ++ x :: r ∧ ∃ o < (f x).length, pat <+: (f x).drop o ++ r.flatMap f := by
  obtain ⟨l, x, r, heq, o, ho, -, hx⟩ := begins_from f hpat (n := 0) h
  exact ⟨l, x, r, heq, o, ho, hx⟩

end Infix
