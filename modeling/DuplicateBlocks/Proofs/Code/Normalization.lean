import DuplicateBlocks.Code.Normal
import DuplicateBlocks.Proofs.Code.Renaming
import Mathlib.Data.List.Forall2

namespace DuplicateBlocks.Code

-- The text was looked at, and every name in it replaced.
@[mk_iff]
structure Normal.IsComplete (n : Normal) : Prop where
  skipped   : n.skipped = false
  untracked : n.untracked = 0
  tooLong   : n.tooLong = 0

theorem normalize_of_le {l : Limits} {raw : List Char} (h : Text.Utf8.byteCount raw ≤ l.contentBytes) :
    normalize l raw =
      { text := (canonicalize l (strip raw)).text
        untracked := (canonicalize l (strip raw)).untracked
        tooLong := (canonicalize l (strip raw)).tooLong } :=
  if_neg (Nat.not_lt.mpr h)

theorem isComplete_normalize_iff {l : Limits} {raw : List Char} :
    (normalize l raw).IsComplete ↔
      Text.Utf8.byteCount raw ≤ l.contentBytes ∧ (canonicalize l (strip raw)).IsComplete := by
  by_cases h : Text.Utf8.byteCount raw ≤ l.contentBytes
  case pos => simp [normalize_of_le h, h, Normal.isComplete_iff, Canonical.IsComplete]
  case neg => simp [normalize, Nat.not_le.mp h, h, Normal.isComplete_iff]

namespace Renamed

open Text

variable {f : List Char → List Char} {cs ds : List Char}

theorem eq_nil_iff (h : Renamed f cs ds) : ds = [] ↔ cs = [] := by
  cases h
  case nil  => rfl
  case mark => simp
  case word hw hf _ _ => simp [hw.ne_nil, hf.ne_nil]

-- What can be told from the first character, as long as it is no word character.
theorem any_head? (h : Renamed f cs ds) {p : Char → Bool} (hp : ∀ c, isWordChar c = true → p c = false) :
    ds.head?.any p = cs.head?.any p := by
  have ha {w : List Char} (hw : IsWord w) (es : List Char) : (w ++ es).head?.any p = false := by
    cases w
    case nil => exact absurd rfl hw.ne_nil
    case cons c w => simp [hp c (hw.all c List.mem_cons_self)]
  cases h
  case nil  => rfl
  case mark => rfl
  case word hw hf _ _ => rw [ha hw, ha hf]

theorem pieces_word {sep : Char → Bool} (hs : ∀ c, isWordChar c = true → sep c = false) {w : List Char}
    (hw : ∀ c ∈ w, isWordChar c = true) (cs : List Char) :
    pieces sep (w ++ cs) = (w ++ (pieces sep cs).head (pieces_ne_nil sep cs)) :: (pieces sep cs).tail :=
  pieces_append_of_not_sep sep (fun c hc => by simp [hs c (hw c hc)]) cs

theorem head_pieces (sep : Char → Bool) (cs : List Char) :
    ∃ ds, (pieces sep cs).head (pieces_ne_nil sep cs) ++ ds = cs := by
  induction cs
  case nil => exact ⟨[], rfl⟩
  case cons c cs hi =>
    by_cases hc : sep c
    case pos => exact ⟨c :: cs, by simp [pieces_cons_sep sep hc]⟩
    case neg =>
      have ⟨ds, h⟩ := hi
      exact ⟨ds, by simp [pieces_cons_of_not_sep sep hc, h]⟩

theorem pieces {sep : Char → Bool} (hs : ∀ c, isWordChar c = true → sep c = false) (h : Renamed f cs ds) :
    List.Forall₂ (Renamed f) (Text.pieces sep cs) (Text.pieces sep ds) := by
  induction h
  case nil => exact .cons .nil .nil
  case mark c cs ds hc _ hi =>
    by_cases hc' : sep c
    case pos =>
      rw [pieces_cons_sep sep hc', pieces_cons_sep sep hc']
      exact .cons .nil hi
    case neg =>
      have ⟨hp, hps⟩ := List.forall₂_cons.mp hi
      rw [pieces_cons_of_not_sep sep hc', pieces_cons_of_not_sep sep hc']
      exact .cons (hp.mark hc) hps
  case word w cs ds hw hf hcs _ hi =>
    have ⟨hp, hps⟩ := List.forall₂_cons.mp hi
    have ⟨es, he⟩ := head_pieces sep cs
    rw [pieces_word hs hw.all, pieces_word hs hf.all]
    exact .cons (hp.word hw hf (he ▸ hcs).of_append) hps

theorem dropReturn_cons {c : Char} {cs : List Char} (h : c ≠ '\r' ∨ cs ≠ []) :
    dropReturn (c :: cs) = c :: dropReturn cs := by
  cases cs
  case nil => simp_all [dropReturn]
  case cons d cs =>
    simp only [dropReturn, List.getLast?_cons_cons, List.dropLast_cons_cons]
    split <;> rfl

theorem dropReturn_word {w : List Char} (hw : ∀ c ∈ w, isWordChar c = true) (cs : List Char) :
    dropReturn (w ++ cs) = w ++ dropReturn cs := by
  induction w
  case nil => rfl
  case cons c w hi =>
    have ⟨hc, hw⟩ := List.forall_mem_cons.mp hw
    have hr : c ≠ '\r' := ne_of_isWordChar hc (by decide)
    rw [List.cons_append, dropReturn_cons (.inl hr), hi hw]
    rfl

theorem dropReturn_append (cs : List Char) : ∃ ds, dropReturn cs ++ ds = cs := by
  unfold dropReturn
  split
  case isTrue  => exact (List.dropLast_prefix cs : ∃ ds, _)
  case isFalse => exact ⟨[], List.append_nil cs⟩

theorem dropReturn (h : Renamed f cs ds) : Renamed f (Text.dropReturn cs) (Text.dropReturn ds) := by
  induction h
  case nil => exact .nil
  case mark c cs ds hc h hi =>
    by_cases hr : c ≠ '\r' ∨ cs ≠ []
    case pos =>
      have hr' : c ≠ '\r' ∨ ds ≠ [] := hr.imp_right (mt h.eq_nil_iff.mp)
      rw [dropReturn_cons hr, dropReturn_cons hr']
      exact hi.mark hc
    case neg =>
      have ⟨hc, hcs⟩ : c = '\r' ∧ cs = [] := by simpa using hr
      have hds := h.eq_nil_iff.mpr hcs
      subst hc hcs hds
      exact .nil
  case word w cs ds hw hf hcs _ hi =>
    have ⟨es, he⟩ := dropReturn_append cs
    rw [dropReturn_word hw.all, dropReturn_word hf.all]
    exact hi.word hw hf (he ▸ hcs).of_append

theorem filter_ne_nil {α β : Type} {R : List α → List β → Prop} {xs : List (List α)} {ys : List (List β)}
    (hR : ∀ {x y}, R x y → (y = [] ↔ x = [])) (h : List.Forall₂ R xs ys) :
    List.Forall₂ R (xs.filter (!·.isEmpty)) (ys.filter (!·.isEmpty)) := by
  refine List.rel_filter (fun x y hxy => ?_) h
  simp [hR hxy]

theorem getLast? {α β : Type} {R : α → β → Prop} {xs : List α} {ys : List β} (h : List.Forall₂ R xs ys) :
    List.Forall₂ R xs.getLast?.toList ys.getLast?.toList := by
  induction h
  case nil => exact .nil
  case cons h hs hi =>
    cases hs
    case nil  => exact .cons h .nil
    case cons => simpa using hi

theorem dropLast {α β : Type} {R : α → β → Prop} {xs : List α} {ys : List β} (h : List.Forall₂ R xs ys) :
    List.Forall₂ R xs.dropLast ys.dropLast := by
  rw [List.dropLast_eq_take, List.dropLast_eq_take, h.length_eq]
  exact List.forall₂_take _ h

theorem feedPieces_eq (cs : List Char) :
    feedPieces cs = (Text.pieces (· == newline) cs).dropLast ++
      (Text.pieces (· == newline) cs).getLast?.toList.filter (!·.isEmpty) := by
  unfold feedPieces
  have hn := pieces_ne_nil (· == newline) cs
  cases hl : (Text.pieces (· == newline) cs).getLast?
  case none => simp_all
  case some p =>
    have ha := List.dropLast_append_getLast? p hl
    cases p <;> simp_all

theorem lines_eq (cs : List Char) :
    lines cs = (Text.pieces (· == newline) cs).dropLast.map Text.dropReturn ++
      (Text.pieces (· == newline) cs).getLast?.toList.filter (!·.isEmpty) := by
  simp only [lines]
  cases (Text.pieces (· == newline) cs).getLast?
  case none   => simp
  case some p => cases p <;> simp

theorem map_dropReturn {xs ys : List (List Char)} (h : List.Forall₂ (Renamed f) xs ys) :
    List.Forall₂ (Renamed f) (xs.map Text.dropReturn) (ys.map Text.dropReturn) := by
  rw [List.forall₂_map_left_iff, List.forall₂_map_right_iff]
  exact h.imp fun _ _ => dropReturn

theorem not_newline (c : Char) (hc : isWordChar c = true) : (c == newline) = false :=
  beq_false_of_ne (ne_of_isWordChar hc (by decide))

theorem sourceLines (h : Renamed f cs ds) :
    List.Forall₂ (Renamed f) (Text.sourceLines cs) (Text.sourceLines ds) := by
  have hp := h.pieces not_newline
  rw [Text.sourceLines, Text.sourceLines, feedPieces_eq, feedPieces_eq]
  exact map_dropReturn (List.rel_append (dropLast hp) (filter_ne_nil eq_nil_iff (getLast? hp)))

theorem lines (h : Renamed f cs ds) : List.Forall₂ (Renamed f) (Text.lines cs) (Text.lines ds) := by
  have hp := h.pieces not_newline
  rw [lines_eq, lines_eq]
  exact List.rel_append (map_dropReturn (dropLast hp)) (filter_ne_nil eq_nil_iff (getLast? hp))

theorem length_comparedLines (h : Renamed f cs ds) : (comparedLines ds).length = (comparedLines cs).length := by
  unfold comparedLines
  simp only [List.isEmpty_iff, h.eq_nil_iff]
  split
  case isTrue  => rfl
  case isFalse => exact (h.pieces not_newline).length_eq.symm

def opens (cs : List Char) : Bool :=
  (cs.zip cs.tail).head?.any opensComment

theorem opens_cons (c : Char) (cs : List Char) : opens (c :: cs) = cs.head?.any fun d => opensComment (c, d) := by
  cases cs <;> rfl

theorem opensComment_word {c d : Char} (h : isWordChar c = true ∨ isWordChar d = true) :
    opensComment (c, d) = false := by
  unfold opensComment
  split <;> simp_all <;> revert h <;> decide

theorem opens_cons_word {c : Char} (hc : isWordChar c = true) (cs : List Char) : opens (c :: cs) = false := by
  rw [opens_cons]
  cases cs.head? <;> simp [opensComment_word (.inl hc)]

theorem opens_word {w : List Char} (hw : IsWord w) (cs : List Char) : opens (w ++ cs) = false := by
  cases w
  case nil      => exact absurd rfl hw.ne_nil
  case cons c w => exact opens_cons_word (hw.all c List.mem_cons_self) _

theorem opens_eq (h : Renamed f cs ds) : opens ds = opens cs := by
  cases h
  case nil => rfl
  case mark c cs ds _ h =>
    rw [opens_cons, opens_cons]
    exact h.any_head? fun d hd => opensComment_word (.inr hd)
  case word hw hf _ _ => rw [opens_word hw, opens_word hf]

theorem commentStart?_cons (c : Char) (cs : List Char) :
    commentStart? (c :: cs) = if opens (c :: cs) then some 0 else (commentStart? cs).map (· + 1) := by
  cases cs
  case nil => rfl
  case cons =>
    rw [commentStart?, List.tail_cons, List.zip_cons_cons, List.findIdx?_cons]
    rfl

theorem beforeComment_cons (c : Char) (cs : List Char) :
    beforeComment (c :: cs) = if opens (c :: cs) then [] else c :: beforeComment cs := by
  rw [beforeComment, commentStart?_cons]
  cases opens (c :: cs)
  case true  => simp
  case false => cases hd : commentStart? cs <;> simp [beforeComment, hd]

theorem beforeComment_word {w : List Char} (hw : ∀ c ∈ w, isWordChar c = true) (cs : List Char) :
    beforeComment (w ++ cs) = w ++ beforeComment cs := by
  induction w
  case nil => rfl
  case cons c w hi =>
    have ⟨hc, hw⟩ := List.forall_mem_cons.mp hw
    rw [List.cons_append, beforeComment_cons, opens_cons_word hc, hi hw]
    rfl

theorem beforeComment (h : Renamed f cs ds) : Renamed f (Code.beforeComment cs) (Code.beforeComment ds) := by
  induction h
  case nil => exact .nil
  case mark c cs ds hc h hi =>
    rw [beforeComment_cons, beforeComment_cons, (h.mark hc).opens_eq]
    split
    case isTrue  => exact .nil
    case isFalse => exact hi.mark hc
  case word w cs ds hw hf hcs _ hi =>
    have ⟨es, he⟩ := beforeComment_prefix cs
    rw [beforeComment_word hw.all, beforeComment_word hf.all]
    exact hi.word hw hf (he.symm ▸ hcs : EndsWord (_ ++ es)).of_append

-- Word characters lie between the lower and the higher blanks.
theorem toNat_of_isWordChar {c : Char} (h : isWordChar c = true) : 0x24 ≤ c.toNat ∧ c.toNat ≤ 0x7A := by
  have hr {a z : Char} (hc : a ≤ c ∧ c ≤ z) (ha : 0x24 ≤ a.toNat) (hz : z.toNat ≤ 0x7A) :
      0x24 ≤ c.toNat ∧ c.toNat ≤ 0x7A :=
    ⟨Nat.le_trans ha hc.left, Nat.le_trans hc.right hz⟩
  have hd {a z : Char} (hc : (decide (a ≤ c) && decide (c ≤ z)) = true) : a ≤ c ∧ c ≤ z := by
    simpa using hc
  rw [isWordChar, Bool.or_eq_true, Bool.or_eq_true] at h
  obtain (h | h) | h := h
  · obtain h | h := Bool.or_eq_true_iff.mp h
    · obtain h | h := Bool.or_eq_true_iff.mp h
      · exact hr (of_decide_eq_true h) (by decide) (by decide)
      · exact hr (hd h) (by decide) (by decide)
    · exact hr (hd h) (by decide) (by decide)
  · exact beq_iff_eq.mp h ▸ by decide
  · exact beq_iff_eq.mp h ▸ by decide

theorem not_isBlank (c : Char) (hc : isWordChar c = true) : isBlank c = false := by
  have ⟨hl, hu⟩ := toNat_of_isWordChar hc
  simp only [isBlank, Bool.or_eq_false_iff, Bool.and_eq_false_iff, decide_eq_false_iff_not, beq_eq_false_iff_ne]
  omega

theorem trimStart (h : Renamed f cs ds) : Renamed f (Text.trimStart cs) (Text.trimStart ds) := by
  have hw {w : List Char} (hw : IsWord w) (cs : List Char) : Text.trimStart (w ++ cs) = w ++ cs := by
    cases w
    case nil      => exact absurd rfl hw.ne_nil
    case cons c w => simp [Text.trimStart, not_isBlank c (hw.all c List.mem_cons_self)]
  induction h
  case nil => exact .nil
  case mark c cs ds hc h hi =>
    cases hb : isBlank c <;> simp only [Text.trimStart, List.dropWhile_cons, hb]
    case true  => exact hi
    case false => exact h.mark hc
  case word w cs ds hv hf hcs h _ =>
    rw [hw hv, hw hf]
    exact h.word hv hf hcs

theorem words (h : Renamed f cs ds) : List.Forall₂ (Renamed f) (Text.words cs) (Text.words ds) :=
  filter_ne_nil eq_nil_iff (h.pieces not_isBlank)

theorem intercalate {c : Char} (hc : isWordChar c = false) {xs ys : List (List Char)}
    (h : List.Forall₂ (Renamed f) xs ys) : Renamed f (List.intercalate [c] xs) (List.intercalate [c] ys) := by
  induction h
  case nil => exact .nil
  case cons h hs hi =>
    cases hs
    case nil => simpa [List.intercalate] using h
    case cons h' hs =>
      have hm := h.append (hi.mark hc) (.cons hc _)
      simpa [List.intercalate] using hm

theorem strip (h : Renamed f cs ds) : Renamed f (Code.strip cs) (Code.strip ds) := by
  have hw : List.Forall₂ (List.Forall₂ (Renamed f)) (codeLines cs) (codeLines ds) := by
    refine filter_ne_nil (fun h => ?empty) ?words
    case empty => rw [← List.length_eq_zero_iff, ← h.length_eq, List.length_eq_zero_iff]
    case words =>
      rw [List.forall₂_map_left_iff, List.forall₂_map_right_iff]
      exact h.lines.imp fun _ _ h => h.beforeComment.words
  rw [strip_eq, strip_eq]
  apply intercalate (by decide)
  rw [List.forall₂_map_left_iff, List.forall₂_map_right_iff]
  exact hw.imp fun _ _ h => intercalate (by decide) h

theorem normalize {l : Limits} {ρ : Renaming} (h : Renamed ρ.word cs ds) (hc : (normalize l cs).IsComplete)
    (hd : (Code.normalize l ds).IsComplete) : Code.normalize l ds = Code.normalize l cs := by
  have ⟨hbc, hc⟩ := isComplete_normalize_iff.mp hc
  have ⟨hbd, hd⟩ := isComplete_normalize_iff.mp hd
  rw [normalize_of_le hbc, normalize_of_le hbd, h.strip.canonicalize hc hd]

end Renamed
end DuplicateBlocks.Code
