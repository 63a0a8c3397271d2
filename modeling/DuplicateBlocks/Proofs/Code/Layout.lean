import DuplicateBlocks.Proofs.Code.Substance
import Mathlib.Data.List.Chain

namespace DuplicateBlocks

namespace Text

variable {sep : Char → Bool} {xs p : List Char}

theorem infix_of_mem_pieces (h : p ∈ pieces sep xs) : p <:+: xs := by
  induction xs generalizing p
  case nil => simp_all
  case cons x xs hi =>
    by_cases hx : sep x
    case pos =>
      rw [pieces_cons_sep sep hx] at h
      cases List.mem_cons.mp h
      case inl h => exact h ▸ List.nil_infix
      case inr h => exact List.infix_cons (hi h)
    case neg =>
      rw [pieces_cons_of_not_sep sep hx] at h
      cases List.mem_cons.mp h
      case inl h =>
        have ⟨ds, hd⟩ := Code.Renamed.head_pieces sep xs
        have hp : x :: (pieces sep xs).head (pieces_ne_nil sep xs) <+: x :: xs := ⟨ds, congrArg (x :: ·) hd⟩
        exact h ▸ hp.isInfix
      case inr h => exact List.infix_cons (hi (List.mem_of_mem_tail h))

theorem pieces_eq_splitOnP (sep : Char → Bool) (xs : List Char) : pieces sep xs = xs.splitOnP sep := by
  induction xs
  case nil => simp
  case cons x xs hi =>
    rw [List.splitOnP_cons_eq_if_modifyHead, ← hi]
    by_cases hx : sep x
    case pos => simp [pieces_cons_sep sep hx, hx]
    case neg =>
      obtain ⟨p, ps, hp⟩ := List.exists_cons_of_ne_nil (pieces_ne_nil sep xs)
      simp [pieces_cons_of_not_sep sep hx, hx, hp]

theorem isChain_of_isInfix {α : Type} {R : α → α → Prop} {xs ys : List α} (h : ys.IsChain R) (hi : xs <:+: ys) :
    xs.IsChain R := by
  obtain ⟨before, after, rfl⟩ := hi
  exact h.left_of_append.right_of_append

theorem isChain_intercalate {α : Type} {R : α → α → Prop} {s : α} {ls : List (List α)} (hn : ∀ l ∈ ls, l ≠ [])
    (h : ∀ l ∈ ls, l.IsChain R) (hl : ∀ l ∈ ls, ∀ x ∈ l, R x s) (hr : ∀ l ∈ ls, ∀ x ∈ l, R s x) :
    (List.intercalate [s] ls).IsChain R := by
  induction ls
  case nil => exact .nil
  case cons l ls hi =>
    simp only [List.forall_mem_cons] at hn h hl hr
    have hc := hi hn.right h.right hl.right hr.right
    cases ls
    case nil => simpa [List.intercalate] using h.left
    case cons l' ls =>
      have hs : (s :: List.intercalate [s] (l' :: ls)).IsChain R := by
        refine hc.cons fun y hy => ?_
        obtain ⟨z, zs, hz⟩ := List.exists_cons_of_ne_nil (hn.right l' List.mem_cons_self)
        rw [intercalate_cons, hz] at hy
        have hy : z = y := by simpa using hy
        exact hr.right l' List.mem_cons_self y (by simp [hz, hy])
      have ha := h.left.append hs fun x hx y hy => by
        have hy : s = y := by simpa using hy
        exact hy ▸ hl.left x (List.mem_of_mem_getLast? hx)
      simpa [intercalate_cons] using ha

theorem words_eq_singleton {w : List Char} (hn : w ≠ []) (h : ∀ c ∈ w, isBlank c = false) : words w = [w] := by
  have hp := pieces_append_of_not_sep isBlank (by simpa using h) []
  simp_all [words]

end Text

namespace Code

open Text Renamed

def commentOpeners : List (List Char) :=
  [['/', '/'], ['/', '*']]

theorem opensComment_iff {c d : Char} : opensComment (c, d) = true ↔ c = '/' ∧ (d = '/' ∨ d = '*') := by
  unfold opensComment
  split <;> simp_all

theorem opens_iff {cs : List Char} : opens cs = true ↔ ∃ o ∈ commentOpeners, o <+: cs := by
  cases cs
  case nil => simp [opens, commentOpeners]
  case cons c cs =>
    rw [opens_cons]
    cases cs
    case nil => simp [commentOpeners]
    case cons d cs =>
      simp [commentOpeners, List.cons_prefix_cons, opensComment_iff]
      grind

-- The part of a line before its first comment, or all of it if it has none.
structure IsCode (line code : List Char) : Prop where
  ends  : code = line ∨ ∃ o ∈ commentOpeners, code ++ o <+: line
  least : ∀ o ∈ commentOpeners, ∀ cs, cs ++ o <+: line → code <+: cs

theorem isCode_beforeComment (line : List Char) : IsCode line (beforeComment line) := by
  induction line
  case nil => exact ⟨.inl rfl, fun _ _ cs _ => List.nil_prefix⟩
  case cons c cs hi =>
    rw [beforeComment_cons]
    cases ho : opens (c :: cs)
    case true =>
      have ⟨o, ho, hp⟩ := opens_iff.mp ho
      exact ⟨.inr ⟨o, ho, hp⟩, fun _ _ _ _ => List.nil_prefix⟩
    case false =>
      rw [if_neg (by simp)]
      constructor
      case ends =>
        refine hi.ends.imp (congrArg _) fun ⟨o, ho, hp⟩ => ⟨o, ho, ?_⟩
        exact List.cons_prefix_cons.mpr ⟨rfl, hp⟩
      case least =>
        intro o hm ds hp
        cases ds
        case nil =>
          exact absurd (opens_iff.mpr ⟨o, hm, hp⟩) (by simp [ho])
        case cons d ds =>
          have ⟨hd, hp⟩ := List.cons_prefix_cons.mp hp
          exact List.cons_prefix_cons.mpr ⟨hd.symm, hi.least o hm ds hp⟩

def IsUncommented (cs : List Char) : Prop :=
  cs.IsChain fun c d => opensComment (c, d) = false

theorem IsUncommented.not_isInfix {cs o : List Char} (h : IsUncommented cs) (ho : o ∈ commentOpeners) : ¬o <:+: cs := by
  intro hi
  have hc := isChain_of_isInfix h hi
  rcases List.mem_pair.mp ho with rfl | rfl <;> simp [opensComment] at hc

theorem isUncommented_beforeComment (line : List Char) : IsUncommented (beforeComment line) := by
  induction line
  case nil => exact .nil
  case cons c cs hi =>
    rw [beforeComment_cons]
    cases ho : opens (c :: cs)
    case true  => exact .nil
    case false =>
      rw [if_neg (by simp)]
      refine hi.cons fun d hd => ?_
      have hh : d ∈ cs.head? := by
        have ⟨ds, hp⟩ := beforeComment_prefix cs
        rw [← hp, List.head?_append, Option.mem_def.mp hd]
        rfl
      simpa [opens_cons, Option.mem_def.mp hh] using ho

theorem beforeComment_eq_self {cs : List Char} (h : IsUncommented cs) : beforeComment cs = cs := by
  cases (isCode_beforeComment cs).ends
  case inl he => exact he
  case inr he =>
    have ⟨o, ho, hp⟩ := he
    have hi : o <:+: beforeComment cs ++ o := (List.suffix_append _ o).isInfix
    exact absurd (hi.trans hp.isInfix) (h.not_isInfix ho)

theorem joinWords_cons_cons (w v : List Char) (ws : List (List Char)) :
    joinWords (w :: v :: ws) = w ++ ' ' :: joinWords (v :: ws) := by
  simp [joinWords, intercalate_cons]

theorem words_joinWords {ws : List (List Char)} (hn : ∀ w ∈ ws, w ≠ [])
    (hb : ∀ w ∈ ws, ∀ c ∈ w, isBlank c = false) : words (joinWords ws) = ws := by
  induction ws
  case nil => rfl
  case cons w ws hi =>
    have ⟨hwn, hn⟩ := List.forall_mem_cons.mp hn
    have ⟨hwb, hb⟩ := List.forall_mem_cons.mp hb
    have hw := words_eq_singleton hwn hwb
    cases ws
    case nil => simpa [joinWords, List.intercalate] using hw
    case cons v ws => rw [joinWords_cons_cons, words_append_blank (by decide), hw, hi hn hb, List.singleton_append]

section

variable {line : List Char}

theorem isBlank_of_mem_codeWords {w : List Char} (h : w ∈ codeWords line) : ∀ c ∈ w, isBlank c = false :=
  fun c hc => by simpa using not_blank_of_mem_words h hc

theorem isUncommented_joinWords (line : List Char) : IsUncommented (joinWords (codeWords line)) := by
  refine isChain_intercalate (fun w hw => ne_nil_of_mem_words hw) (fun w hw => ?chain) (fun _ _ c _ => ?before)
    fun _ _ c _ => ?after
  case chain =>
    have hi := infix_of_mem_pieces (List.mem_filter.mp hw).left
    exact isChain_of_isInfix (isUncommented_beforeComment line) hi
  case before => exact opensComment_blank (.inr (by decide))
  case after  => exact opensComment_blank (.inl (by decide))

theorem codeWords_joinWords (line : List Char) : codeWords (joinWords (codeWords line)) = codeWords line := by
  rw [codeWords, beforeComment_eq_self (isUncommented_joinWords line)]
  exact words_joinWords (fun _ => ne_nil_of_mem_words) fun _ => isBlank_of_mem_codeWords

theorem mem_joinWords {c : Char} {ws : List (List Char)} (h : c ∈ joinWords ws) : c = ' ' ∨ ∃ w ∈ ws, c ∈ w := by
  cases ws
  case nil => simp [joinWords, List.intercalate] at h
  case cons w ws =>
    rw [joinWords, intercalate_cons, List.mem_append, List.mem_flatMap] at h
    grind

theorem mem_of_head?_joinWords {c : Char} {ws : List (List Char)} (hn : ∀ w ∈ ws, w ≠ [])
    (h : c ∈ (joinWords ws).head?) : ∃ w ∈ ws, c ∈ w := by
  cases ws
  case nil => simp [joinWords, List.intercalate] at h
  case cons w ws =>
    rw [joinWords, intercalate_cons, List.head?_append_of_ne_nil _ (hn w List.mem_cons_self)] at h
    exact ⟨w, List.mem_cons_self, List.mem_of_mem_head? h⟩

theorem mem_of_getLast?_joinWords {c : Char} {ws : List (List Char)} (hn : ∀ w ∈ ws, w ≠ [])
    (h : c ∈ (joinWords ws).getLast?) : ∃ w ∈ ws, c ∈ w := by
  induction ws
  case nil => simp [joinWords, List.intercalate] at h
  case cons w ws hi =>
    cases ws
    case nil => exact ⟨w, List.mem_cons_self, List.mem_of_mem_getLast? (by simpa [joinWords, List.intercalate] using h)⟩
    case cons v ws =>
      have hr : joinWords (v :: ws) ≠ [] :=
        intercalate_ne_nil List.mem_cons_self (hn v (List.mem_cons_of_mem w List.mem_cons_self)) _
      rw [joinWords_cons_cons, List.getLast?_append_cons, List.getLast?_cons_of_ne_nil hr] at h
      obtain ⟨u, hu, hc⟩ := hi (fun u hu => hn u (List.mem_cons_of_mem w hu)) h
      exact ⟨u, List.mem_cons_of_mem w hu, hc⟩

theorem eq_of_mem_joinWords {c : Char} (h : c ∈ joinWords (codeWords line)) (hc : isBlank c = true) : c = ' ' := by
  cases mem_joinWords h
  case inl he => exact he
  case inr hw =>
    have ⟨w, hw, hm⟩ := hw
    simp [isBlank_of_mem_codeWords hw c hm] at hc

theorem newline_not_mem_joinWords (line : List Char) : newline ∉ joinWords (codeWords line) :=
  fun h => absurd (eq_of_mem_joinWords h (by decide)) (by decide)

-- What a line of code is without comment and superfluous blanks.
structure IsPlain (line : List Char) : Prop where
  code    : ∃ c ∈ line, isBlank c = false
  comment : ∀ o ∈ commentOpeners, ¬o <:+: line
  first   : ∀ c ∈ line.head?, isBlank c = false
  last    : ∀ c ∈ line.getLast?, isBlank c = false
  blank   : ∀ c ∈ line, isBlank c = true → c = ' '
  single  : ¬[' ', ' '] <:+: line

theorem isPlain_joinWords (h : codeWords line ≠ []) : IsPlain (joinWords (codeWords line)) := by
  have hn : ∀ w ∈ codeWords line, w ≠ [] := fun _ => ne_nil_of_mem_words
  have hb {c : Char} (hc : ∃ w ∈ codeWords line, c ∈ w) : isBlank c = false := by
    have ⟨w, hw, hc⟩ := hc
    exact isBlank_of_mem_codeWords hw c hc
  have hf : ∀ c ∈ (joinWords (codeWords line)).head?, isBlank c = false :=
    fun _ hc => hb (mem_of_head?_joinWords hn hc)
  constructor
  case first   => exact hf
  case last    => exact fun _ hc => hb (mem_of_getLast?_joinWords hn hc)
  case blank   => exact fun _ => eq_of_mem_joinWords
  case comment => exact fun _ => (isUncommented_joinWords line).not_isInfix
  case code =>
    have ⟨c, cs, hc⟩ := List.exists_cons_of_ne_nil (joinWords_ne_nil h)
    exact ⟨c, hc ▸ List.mem_cons_self, hf c (hc ▸ rfl)⟩
  case single =>
    intro hi
    have hs : (joinWords (codeWords line)).IsChain fun c d => c = ' ' → d ≠ ' ' := by
      have hc {w : List Char} {c : Char} (hw : w ∈ codeWords line) (hc : c ∈ w) : c ≠ ' ' :=
        fun he => by simpa [he, isBlank] using hb ⟨w, hw, hc⟩
      refine isChain_intercalate hn (fun w hw => ?_) (fun w hw c hm he => absurd he (hc hw hm))
        fun w hw _ hm _ => hc hw hm
      exact List.isChain_iff_forall_rel_of_append_cons_cons.mpr fun c d _ _ he _ => hc hw (by simp [he])
    simpa using isChain_of_isInfix hs hi

end

theorem exists_of_mem_codeLines {text : List Char} {ws : List (List Char)} (h : ws ∈ codeLines text) :
    ∃ line, codeWords line = ws ∧ ws ≠ [] := by
  have ⟨hw, hn⟩ := List.mem_filter.mp h
  have ⟨line, _, he⟩ := List.mem_map.mp hw
  exact ⟨line, he, by simpa using hn⟩

theorem newline_not_mem_of_mem_codeLines {text : List Char} : ∀ l ∈ (codeLines text).map joinWords, newline ∉ l := by
  intro l hl
  have ⟨ws, hws, he⟩ := List.mem_map.mp hl
  have ⟨line, hw, _⟩ := exists_of_mem_codeLines hws
  exact he ▸ hw ▸ newline_not_mem_joinWords line

theorem codeLines_strip (text : List Char) : codeLines (strip text) = codeLines text := by
  have hc : ∀ ws ∈ codeLines text, codeWords (joinWords ws) = ws := by
    intro ws hws
    have ⟨line, hw, _⟩ := exists_of_mem_codeLines hws
    exact hw ▸ codeWords_joinWords line
  have hn : ∀ ws ∈ codeLines text, (!ws.isEmpty) = true := fun ws hws => (List.mem_filter.mp hws).right
  rw [strip_eq, codeLines_unlines newline_not_mem_of_mem_codeLines, List.map_map, Function.comp_def,
    List.map_congr_left hc, List.map_id', List.filter_eq_self.mpr hn]

theorem strip_strip (text : List Char) : strip (strip text) = strip text := by
  rw [strip_eq (strip text), codeLines_strip, strip_eq]

theorem comparedLines_strip (text : List Char) : comparedLines (strip text) = (codeLines text).map joinWords := by
  by_cases hc : codeLines text = []
  case pos => rw [strip_eq, hc]; rfl
  case neg =>
    have ⟨ws, hws⟩ := List.exists_mem_of_ne_nil _ hc
    have ⟨line, hw, hn⟩ := exists_of_mem_codeLines hws
    have hs : strip text ≠ [] := by
      rw [strip_eq]
      exact intercalate_ne_nil (List.mem_map_of_mem hws) (hw ▸ joinWords_ne_nil (hw ▸ hn)) _
    rw [comparedLines, if_neg (by simpa using hs), strip_eq, unlines]
    exact pieces_intercalate (by simpa using hc) newline_not_mem_of_mem_codeLines

-- A stripped text is nothing but code.
structure IsStripped (text : List Char) : Prop where
  words : ∀ line ∈ lines text, ∃ code, IsCode line code ∧ codeWords line = (code.splitOnP isBlank).filter (!·.isEmpty)
  lines : comparedLines (strip text) = (codeLines text).map joinWords
  plain : ∀ line ∈ comparedLines (strip text), IsPlain line

theorem isStripped (text : List Char) : IsStripped text := by
  constructor
  case words => exact fun line _ => ⟨_, isCode_beforeComment line, by rw [codeWords, Text.words, pieces_eq_splitOnP]⟩
  case lines => exact comparedLines_strip text
  case plain =>
    intro l hl
    rw [comparedLines_strip] at hl
    obtain ⟨ws, hws, he⟩ := List.mem_map.mp hl
    obtain ⟨line, hw, hn⟩ := exists_of_mem_codeLines hws
    exact he ▸ hw ▸ isPlain_joinWords (hw ▸ hn)

-- Two texts are stripped to the same exactly if their lines have the same code words, lines without any left out.
theorem strip_eq_strip_iff (a b : List Char) :
    (strip a = strip b ↔ codeLines a = codeLines b) ∧ IsStripped a := by
  refine ⟨⟨fun h => ?_, fun h => ?_⟩, isStripped a⟩
  · rw [← codeLines_strip a, h, codeLines_strip]
  · rw [strip_eq, h, strip_eq]

end Code
end DuplicateBlocks
