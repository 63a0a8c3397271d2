import DuplicateBlocks.Code.Token

namespace DuplicateBlocks.Code

theorem ne_of_isWordChar {c d : Char} (hc : isWordChar c = true) (hd : isWordChar d = false) : c ≠ d := by
  intro he
  simp [he, hd] at hc

-- A nonempty run of word characters.
structure IsWord (w : List Char) : Prop where
  ne_nil : w ≠ []
  all    : ∀ c ∈ w, isWordChar c = true

-- A text that a word can stand before without growing longer.
def EndsWord (cs : List Char) : Prop :=
  ∀ c ∈ cs.head?, isWordChar c = false

theorem EndsWord.nil : EndsWord [] := by
  simp [EndsWord]

theorem EndsWord.cons {c : Char} (h : isWordChar c = false) (cs : List Char) : EndsWord (c :: cs) := by
  simpa [EndsWord] using h

theorem EndsWord.of_append {cs ds : List Char} (h : EndsWord (cs ++ ds)) : EndsWord cs := by
  cases cs
  case nil  => exact .nil
  case cons => exact h

theorem not_endsWord {w : List Char} (hw : IsWord w) (cs : List Char) : ¬EndsWord (w ++ cs) := by
  cases w
  case nil => exact absurd rfl hw.ne_nil
  case cons c w => simp [EndsWord, hw.all c]

-- A word character goes on with the word after it, if there is one.
@[elab_as_elim]
theorem wordInduction {motive : List Char → Prop} (cs : List Char) (nil : motive [])
    (mark : ∀ c cs, isWordChar c = false → motive cs → motive (c :: cs))
    (word : ∀ w cs, IsWord w → EndsWord cs → motive cs → motive (w ++ cs)) : motive cs := by
  have h : motive cs ∧ ∀ w, IsWord w → motive (w ++ cs) := by
    induction cs
    case nil => exact ⟨nil, fun w hw => word w [] hw .nil nil⟩
    case cons c cs hi =>
      cases hc : isWordChar c
      case false =>
        have hm := mark c cs hc hi.left
        exact ⟨hm, fun w hw => word w (c :: cs) hw (.cons hc cs) hm⟩
      case true =>
        refine ⟨hi.right [c] ⟨List.cons_ne_nil c [], by simpa using hc⟩, fun w hw => ?_⟩
        have hwc : IsWord (w ++ [c]) := ⟨by simp, List.forall_mem_append.mpr ⟨hw.all, by simpa using hc⟩⟩
        simpa using hi.right (w ++ [c]) hwc
  exact h.left

namespace Token

theorem extend_mark {c : Char} (h : isWordChar c = false) (ts : List Token) : extend c ts = mark c :: ts := by
  unfold extend
  split <;> simp [h]

theorem ofText_mark {c : Char} (h : isWordChar c = false) (cs : List Char) :
    ofText (c :: cs) = mark c :: ofText cs := by
  rw [ofText_cons, extend_mark h]

theorem ofText_word {w cs : List Char} (hw : IsWord w) (hcs : EndsWord cs) :
    ofText (w ++ cs) = word w :: ofText cs := by
  have ⟨hn, ha⟩ := hw
  clear hw
  induction w
  case nil => exact absurd rfl hn
  case cons c w hi =>
    have ⟨hc, ha⟩ := List.forall_mem_cons.mp ha
    rw [List.cons_append, ofText_cons]
    by_cases hw : w = []
    case neg => simp [hi hw ha, extend, hc]
    case pos =>
      subst hw
      cases cs
      case nil       => simp [extend, hc]
      case cons d cs => simp [ofText_mark (hcs d rfl), extend, hc]

theorem isWord_of_mem_ofText {w cs : List Char} (h : word w ∈ ofText cs) : IsWord w := by
  induction cs using wordInduction
  case nil => simp at h
  case mark c cs hc hi =>
    rw [ofText_mark hc] at h
    exact hi (by simpa using h)
  case word v cs hv hcs hi =>
    rw [ofText_word hv hcs, List.mem_cons, word.injEq] at h
    cases h
    case inl h => exact h ▸ hv
    case inr h => exact hi h

end Token

end DuplicateBlocks.Code
