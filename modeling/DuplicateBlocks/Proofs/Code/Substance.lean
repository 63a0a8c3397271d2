import DuplicateBlocks.Proofs.Code.Normalization

namespace DuplicateBlocks

namespace Text

theorem words_append_blank {c : Char} (h : isBlank c = true) (cs ds : List Char) :
    words (cs ++ c :: ds) = words cs ++ words ds := by
  simp [words, pieces_append_cons_sep isBlank h]

theorem words_cons_blank {c : Char} (h : isBlank c = true) (cs : List Char) : words (c :: cs) = words cs :=
  words_append_blank h [] cs

theorem words_concat_blank {c : Char} (h : isBlank c = true) (cs : List Char) : words (cs ++ [c]) = words cs :=
  (words_append_blank h cs []).trans (List.append_nil _)

theorem words_cons_ne_nil {c : Char} (h : isBlank c = false) (cs : List Char) : words (c :: cs) ≠ [] := by
  simp [words, pieces_cons_of_not_sep isBlank (by simp [h] : ¬isBlank c)]

theorem intercalate_ne_nil {α : Type} {x : List α} {xs : List (List α)} (h : x ∈ xs) (hx : x ≠ []) (s : α) :
    List.intercalate [s] xs ≠ [] := by
  cases xs
  case nil => simp at h
  case cons y ys =>
    rw [intercalate_cons, ne_eq, List.append_eq_nil_iff, List.flatMap_eq_nil_iff]
    cases List.mem_cons.mp h
    case inl h => simp [← h, hx]
    case inr h => exact fun hn => List.cons_ne_nil s x (hn.right x h)

end Text

namespace Code

open Text Renamed

theorem opensComment_blank {c d : Char} (h : isBlank c = true ∨ isBlank d = true) : opensComment (c, d) = false := by
  unfold opensComment
  split <;> simp_all <;> revert h <;> decide

theorem opens_cons_blank {c : Char} (h : isBlank c = true) (cs : List Char) : opens (c :: cs) = false := by
  rw [opens_cons]
  cases cs.head? <;> simp [opensComment_blank (.inl h)]

theorem opens_concat_blank {b : Char} (h : isBlank b = true) (c : Char) (cs : List Char) :
    opens (c :: (cs ++ [b])) = opens (c :: cs) := by
  rw [opens_cons, opens_cons]
  cases cs <;> simp [opensComment_blank (.inr h)]

theorem beforeComment_concat_blank {b : Char} (h : isBlank b = true) (cs : List Char) :
    beforeComment (cs ++ [b]) = beforeComment cs ∨ beforeComment (cs ++ [b]) = beforeComment cs ++ [b] := by
  induction cs
  case nil => exact .inr rfl
  case cons c cs hi =>
    rw [List.cons_append, beforeComment_cons, beforeComment_cons, opens_concat_blank h]
    split
    case isTrue  => exact .inl rfl
    case isFalse => exact hi.imp (congrArg _) (congrArg _)

theorem codeWords_concat_blank {b : Char} (h : isBlank b = true) (cs : List Char) :
    codeWords (cs ++ [b]) = codeWords cs := by
  unfold codeWords
  cases beforeComment_concat_blank h cs
  case inl he => rw [he]
  case inr he => rw [he, words_concat_blank h]

theorem codeWords_dropReturn (line : List Char) : codeWords (Text.dropReturn line) = codeWords line := by
  unfold Text.dropReturn
  split
  case isTrue h =>
    have hl : line.dropLast ++ ['\r'] = line := List.dropLast_append_getLast? _ (by simpa using h)
    rw [← codeWords_concat_blank (by decide : isBlank '\r' = true), hl]
  case isFalse => rfl

-- The first character that is not blank is code, unless a comment opens there.
theorem codeWords_ne_nil {line : List Char} (hn : Text.trimStart line ≠ []) (ho : opens (Text.trimStart line) = false) :
    codeWords line ≠ [] := by
  unfold codeWords
  induction line
  case nil => exact absurd rfl hn
  case cons c cs hi =>
    rw [beforeComment_cons]
    cases hb : isBlank c <;> simp only [Text.trimStart, List.dropWhile_cons, hb] at hn ho hi
    case true =>
      rw [opens_cons_blank hb, if_neg (by simp), words_cons_blank hb]
      exact hi hn ho
    case false =>
      simp only [Bool.false_eq_true, if_false] at ho
      rw [ho, if_neg (by simp)]
      exact words_cons_ne_nil hb _

theorem codeLines_unlines {ls : List (List Char)} (h : ∀ l ∈ ls, newline ∉ l) :
    codeLines (unlines ls) = (ls.map codeWords).filter (!·.isEmpty) := by
  cases hl : ls.getLast?
  case none =>
    have hn : ls = [] := List.getLast?_eq_none_iff.mp hl
    subst hn
    rfl
  case some l =>
    have ha := List.dropLast_append_getLast? l hl
    have hn : ls ≠ [] := fun hn => by simp [hn] at hl
    have hd : (fun l => codeWords (Text.dropReturn l)) = codeWords := funext codeWords_dropReturn
    rw [codeLines, lines_eq, unlines, pieces_intercalate hn h, hl, List.map_append, List.map_map, Function.comp_def, hd]
    nth_rewrite 2 [← ha]
    cases l <;> simp
    rfl

theorem joinWords_ne_nil {line : List Char} (h : codeWords line ≠ []) : joinWords (codeWords line) ≠ [] := by
  have ⟨w, hw⟩ := List.exists_mem_of_ne_nil _ h
  exact intercalate_ne_nil hw (ne_nil_of_mem_words hw) _

theorem strip_unlines_ne_nil {ls : List (List Char)} {l : List Char} (h : ∀ l ∈ ls, newline ∉ l) (hl : l ∈ ls)
    (hc : codeWords l ≠ []) : strip (unlines ls) ≠ [] := by
  have hm : codeWords l ∈ codeLines (unlines ls) := by
    rw [codeLines_unlines h, List.mem_filter]
    exact ⟨List.mem_map_of_mem hl, by simpa using hc⟩
  rw [strip_eq]
  exact intercalate_ne_nil (List.mem_map_of_mem hm) (joinWords_ne_nil hc) _

theorem placeholder_ne_nil (k : Nat) : placeholder k ≠ [] := by
  unfold placeholder
  exact List.append_ne_nil_of_left_ne_nil (List.append_ne_nil_of_right_ne_nil _ Nat.toDigits_ne_nil) _

theorem canonicalize_ne_nil {cs : List Char} (h : cs ≠ []) (l : Limits) : (canonicalize l cs).text ≠ [] := by
  rw [← Token.spell_ofText cs, Token.spell, ne_eq, List.flatMap_eq_nil_iff] at h
  push Not at h
  obtain ⟨t, ht, hn⟩ := h
  rw [canonicalize_eq, Canonical.ofTokens, ne_eq, List.flatMap_eq_nil_iff]
  intro hf
  have hc := hf t ht
  unfold Token.canonical at hc
  split at hc
  case h_1 k _ => exact placeholder_ne_nil k hc
  case h_2     => exact hn hc

theorem normalize_unlines_ne_nil {ls : List (List Char)} {line : List Char} (h : ∀ l ∈ ls, newline ∉ l)
    (hl : line ∈ ls) (hc : codeWords line ≠ []) (l : Limits) : (normalize l (unlines ls)).text ≠ [] := by
  unfold normalize
  split
  case isTrue =>
    have hn : line ≠ [] := fun hn => hc (by rw [hn]; rfl)
    exact intercalate_ne_nil hl hn _
  case isFalse => exact canonicalize_ne_nil (strip_unlines_ne_nil h hl hc) l

end Code
end DuplicateBlocks
