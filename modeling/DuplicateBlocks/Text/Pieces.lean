namespace DuplicateBlocks.Text

variable {α : Type}

-- The pieces of a list between the elements that satisfy `sep`, as the first piece and the others.
def cut (sep : α → Bool) (xs : List α) : List α × List (List α) :=
  xs.foldr (fun x (first, others) => if sep x then ([], first :: others) else (x :: first, others)) ([], [])

-- The pieces of a list between the elements that satisfy `sep`: one more than there are separators.
def pieces (sep : α → Bool) (xs : List α) : List (List α) :=
  (cut sep xs).1 :: (cut sep xs).2

@[simp]
theorem pieces_nil (sep : α → Bool) : pieces sep [] = [[]] := rfl

theorem pieces_ne_nil (sep : α → Bool) (xs : List α) : pieces sep xs ≠ [] := by
  simp [pieces]

theorem pieces_cons_sep (sep : α → Bool) {x : α} (h : sep x) (xs : List α) :
    pieces sep (x :: xs) = [] :: pieces sep xs := by
  simp [pieces, cut, h]

theorem pieces_cons_of_not_sep (sep : α → Bool) {x : α} (h : ¬sep x) (xs : List α) :
    pieces sep (x :: xs) = (x :: (pieces sep xs).head (pieces_ne_nil sep xs)) :: (pieces sep xs).tail := by
  simp [pieces, cut, h]

theorem pieces_append_cons_sep (sep : α → Bool) {x : α} (h : sep x) (xs ys : List α) :
    pieces sep (xs ++ x :: ys) = pieces sep xs ++ pieces sep ys := by
  induction xs with
  | nil => simp [pieces_cons_sep sep h]
  | cons a as ih =>
    by_cases ha : sep a
    · simp [pieces_cons_sep sep ha, ih]
    · simp [pieces_cons_of_not_sep sep ha, ih, List.head_append_of_ne_nil, List.tail_append_of_ne_nil, pieces_ne_nil]

theorem pieces_append_of_not_sep (sep : α → Bool) {ys : List α} (h : ∀ y ∈ ys, ¬sep y) (xs : List α) :
    pieces sep (ys ++ xs) = (ys ++ (pieces sep xs).head (pieces_ne_nil sep xs)) :: (pieces sep xs).tail := by
  induction ys with
  | nil => simp
  | cons y ys ih =>
    have ⟨hy, hys⟩ := List.forall_mem_cons.mp h
    rw [List.cons_append, pieces_cons_of_not_sep sep hy]
    simp [ih hys]

theorem not_sep_of_mem_pieces {sep : α → Bool} {xs p : List α} {x : α}
    (hp : p ∈ pieces sep xs) (hx : x ∈ p) : ¬sep x := by
  induction xs generalizing p with
  | nil => simp_all
  | cons a as ih =>
    by_cases h : sep a
    · rw [pieces_cons_sep sep h] at hp
      rcases List.mem_cons.mp hp with rfl | hp
      · simp at hx
      · exact ih hp hx
    · rw [pieces_cons_of_not_sep sep h] at hp
      rcases List.mem_cons.mp hp with rfl | hp
      · rcases List.mem_cons.mp hx with rfl | hx
        · exact h
        · exact ih (List.head_mem _) hx
      · exact ih (List.mem_of_mem_tail hp) hx

theorem intercalate_pieces [BEq α] [LawfulBEq α] (s : α) (xs : List α) :
    List.intercalate [s] (pieces (· == s) xs) = xs := by
  induction xs with
  | nil => rfl
  | cons a as ih =>
    obtain ⟨p, ps, h⟩ := List.exists_cons_of_ne_nil (pieces_ne_nil (· == s) as)
    by_cases ha : a == s
    · rw [pieces_cons_sep (· == s) ha, h]
      rw [h] at ih
      simp_all [List.intercalate, List.intersperse]
    · rw [pieces_cons_of_not_sep (· == s) ha]
      simp only [h, List.head_cons, List.tail_cons] at ih ⊢
      cases ps <;> simp_all [List.intercalate, List.intersperse]

theorem intercalate_cons (s : α) (x : List α) (xs : List (List α)) :
    List.intercalate [s] (x :: xs) = x ++ xs.flatMap (s :: ·) := by
  induction xs generalizing x with
  | nil => simp [List.intercalate]
  | cons y ys ih => simpa [List.intercalate] using ih y

theorem pieces_intercalate [BEq α] [LawfulBEq α] {s : α} {ls : List (List α)} (hn : ls ≠ [])
    (h : ∀ l ∈ ls, s ∉ l) : pieces (· == s) (List.intercalate [s] ls) = ls := by
  induction ls with
  | nil => exact absurd rfl hn
  | cons l ls ih =>
    have ⟨hl, hls⟩ := List.forall_mem_cons.mp h
    have hs : ∀ x ∈ l, ¬(x == s) = true := fun x hx he => hl (eq_of_beq he ▸ hx)
    cases ls with
    | nil => simpa [List.intercalate] using pieces_append_of_not_sep (· == s) hs []
    | cons l' ls =>
      have hi : List.intercalate [s] (l :: l' :: ls) = l ++ s :: List.intercalate [s] (l' :: ls) := by
        simp [List.intercalate]
      have hc := pieces_cons_sep (· == s) (BEq.rfl : (s == s) = true) (List.intercalate [s] (l' :: ls))
      rw [hi, pieces_append_of_not_sep _ hs]
      simp [hc, ih (by simp) hls]

end DuplicateBlocks.Text
