import DuplicateBlocks.Proofs.Code.Substance
import DuplicateBlocks.Proofs.Utf8

namespace DuplicateBlocks.Code

theorem isWordChar_of_isDigit {c : Char} (h : c.isDigit = true) : isWordChar c = true := by
  simp [isWordChar, Char.isAlphanum, h]

theorem isWord_placeholder (k : Nat) : IsWord (placeholder k) := by
  constructor
  case ne_nil => exact placeholder_ne_nil k
  case all =>
    have hv : ∀ c ∈ "__VAR".toList, isWordChar c = true := List.all_eq_true.mp (by decide)
    have hu : ∀ c ∈ "__".toList, isWordChar c = true := List.all_eq_true.mp (by decide)
    unfold placeholder
    simp only [List.forall_mem_append]
    refine ⟨⟨hv, fun c hc => ?_⟩, hu⟩
    exact isWordChar_of_isDigit (Nat.isDigit_of_mem_toDigits (by decide) (Nat.le_refl 10) hc)

theorem head?_ne_of_mem_reserved : ∀ w ∈ reserved, w.head? ≠ some '_' := by
  decide +kernel

theorem isName_placeholder (k : Nat) : isName (placeholder k) = true := by
  have hr : placeholder k ∉ reserved := fun h => head?_ne_of_mem_reserved _ h rfl
  have hc : placeholder k = '_' :: (placeholder k).tail := rfl
  rw [hc] at hr ⊢
  simpa [isName] using hr

theorem placeholder_injective : Function.Injective placeholder := by
  intro j k h
  have hd : Nat.toDigits 10 j = Nat.toDigits 10 k := List.append_cancel_left (List.append_cancel_right h)
  calc
    j = Nat.ofDigitChars 10 (Nat.toDigits 10 j) 0 := Nat.ofDigitChars_ten_toDigits.symm
    _ = Nat.ofDigitChars 10 (Nat.toDigits 10 k) 0 := by rw [hd]
    _ = k                                         := Nat.ofDigitChars_ten_toDigits

-- What a name is replaced by.
def Roster.alias (r : Roster) (n : List Char) : List Char :=
  match r.number? n with
  | some k => placeholder k
  | none => n

namespace Token

variable {ts : List Token} {f : List Char → List Char}

def rename (f : List Char → List Char) : Token → Token
  | word w => word (if isName w then f w else w)
  | mark c => mark c

theorem text_rename_alias (r : Roster) (t : Token) : (t.rename r.alias).text = t.canonical r := by
  cases t
  case mark c => rfl
  case word w =>
    simp only [rename, text, canonical, name?, Roster.alias]
    split
    case isFalse => rfl
    case isTrue  => rfl

-- Tokens as they come from a text: words are as long as they can be.
inductive Spaced : List Token → Prop
  | nil : Spaced []
  | mark {c : Char} {ts : List Token} : isWordChar c = false → Spaced ts → Spaced (mark c :: ts)
  | word {w : List Char} {ts : List Token} : IsWord w → EndsWord (spell ts) → Spaced ts → Spaced (word w :: ts)

theorem spaced_ofText (cs : List Char) : Spaced (ofText cs) := by
  induction cs
  case nil => exact .nil
  case cons c cs hi =>
    rw [ofText_cons]
    generalize ofText cs = ts at hi
    cases hc : isWordChar c
    case false =>
      rw [extend_mark hc]
      exact hi.mark hc
    case true =>
      have hw : IsWord [c] := ⟨List.cons_ne_nil c [], by simpa using hc⟩
      cases hi <;> simp only [extend, hc, if_true]
      case nil       => exact .word hw .nil .nil
      case mark hd h => exact .word hw (.cons hd _) (h.mark hd)
      case word w _ hv h he =>
        have hv : IsWord (c :: w) := ⟨List.cons_ne_nil c w, List.forall_mem_cons.mpr ⟨hc, hv.all⟩⟩
        exact .word hv h he

namespace Spaced

theorem ofText_spell (h : Spaced ts) : ofText (spell ts) = ts := by
  induction h
  case nil => rfl
  case mark c ts hc _ hi    => exact (ofText_mark hc (spell ts)).trans (congrArg _ hi)
  case word w ts hw he _ hi => exact (ofText_word hw he).trans (congrArg _ hi)

theorem endsWord_rename (h : Spaced ts) (he : EndsWord (spell ts)) : EndsWord (spell (ts.map (Token.rename f))) := by
  cases h
  case nil         => exact .nil
  case mark hc _   => exact .cons hc _
  case word hw _ _ => exact absurd he (not_endsWord hw _)

theorem rename (h : Spaced ts) (hf : ∀ w, IsWord w → IsWord (f w)) : Spaced (ts.map (Token.rename f)) := by
  induction h
  case nil => exact .nil
  case mark hc _ hi => exact hi.mark hc
  case word w ts hw he h hi =>
    refine .word ?_ (h.endsWord_rename he) hi
    split
    case isTrue  => exact hf w hw
    case isFalse => exact hw

end Spaced
end Token

-- The smallest parts of a text: words, and the bytes of all other characters.
inductive Lexeme where
  | word (cs : List Char)
  | byte (b : UInt8)
  deriving DecidableEq, Repr

namespace Lexeme

def name? : Lexeme → Option (List Char)
  | word cs => if isName cs then some cs else none
  | byte _  => none

def bytes : Lexeme → List UInt8
  | word cs => Text.Utf8.encode cs
  | byte b  => [b]

def rename (f : List Char → List Char) : Lexeme → Lexeme
  | word w => word (if isName w then f w else w)
  | byte b => byte b

-- Lexemes in the same place of two texts: names that `f` takes to each other, or one that is no name in both.
inductive Matches (f : List Char → List Char) : Lexeme → Lexeme → Prop
  | name {n m : List Char} : isName n = true → isName m = true → f n = m → Matches f (word n) (word m)
  | same {x : Lexeme} : x.name? = none → Matches f x x

end Lexeme

def Token.lexemes : Token → List Lexeme
  | word cs => [.word cs]
  | mark c  => (String.utf8EncodeChar c).map .byte

def lexemes (cs : List Char) : List Lexeme :=
  (Token.ofText cs).flatMap Token.lexemes

theorem flatMap_bytes_lexemes (cs : List Char) : (lexemes cs).flatMap Lexeme.bytes = Text.Utf8.encode cs := by
  have ht (t : Token) : t.lexemes.flatMap Lexeme.bytes = Text.Utf8.encode t.text := by
    cases t <;> simp [Token.lexemes, Lexeme.bytes, Token.text, Text.Utf8.encode, List.flatMap_map]
  calc (lexemes cs).flatMap Lexeme.bytes
    _ = (Token.ofText cs).flatMap fun t => Text.Utf8.encode t.text := by simp [lexemes, List.flatMap_assoc, ht]
    _ = Text.Utf8.encode (Token.spell (Token.ofText cs)) := by
      simp [Text.Utf8.encode, Token.spell, List.flatMap_assoc]
    _ = Text.Utf8.encode cs := by rw [Token.spell_ofText]

theorem lexemes_injective : Function.Injective lexemes := by
  intro cs ds h
  apply Text.Utf8.encode_injective
  rw [← flatMap_bytes_lexemes, h, flatMap_bytes_lexemes]

theorem filterMap_name?_lexemes (cs : List Char) : (lexemes cs).filterMap Lexeme.name? = namesOf cs := by
  have ht (t : Token) : t.lexemes.filterMap Lexeme.name? = t.name?.toList := by
    cases t
    case mark c => simp [Token.lexemes, Token.name?, Lexeme.name?]
    case word w => by_cases hw : isName w <;> simp [Token.lexemes, Token.name?, Lexeme.name?, hw]
  rw [lexemes, namesOf, List.filterMap_flatMap, List.filterMap_eq_flatMap_toList]
  simp only [ht]

theorem lexemes_rename (f : List Char → List Char) (t : Token) :
    (t.rename f).lexemes = t.lexemes.map (Lexeme.rename f) := by
  cases t <;> simp [Token.rename, Token.lexemes, Lexeme.rename]

theorem Roster.isWord_alias (r : Roster) (w : List Char) (h : IsWord w) : IsWord (r.alias w) := by
  unfold Roster.alias
  split
  case h_1 k _ => exact isWord_placeholder k
  case h_2     => exact h

theorem Roster.isName_alias (r : Roster) (n : List Char) (h : isName n = true) : isName (r.alias n) = true := by
  unfold Roster.alias
  split
  case h_1 k _ => exact isName_placeholder k
  case h_2     => exact h

theorem text_canonicalize (l : Limits) (cs : List Char) :
    (canonicalize l cs).text =
      Token.spell ((Token.ofText cs).map (Token.rename (l.roster (Token.ofText cs)).alias)) := by
  simp [canonicalize_eq, Canonical.ofTokens, Token.spell, List.flatMap_map, Token.text_rename_alias]

theorem lexemes_canonicalize (l : Limits) (cs : List Char) :
    lexemes (canonicalize l cs).text = (lexemes cs).map (Lexeme.rename (l.roster (Token.ofText cs)).alias) := by
  have hs := (Token.spaced_ofText cs).rename (l.roster (Token.ofText cs)).isWord_alias
  rw [text_canonicalize, lexemes, hs.ofText_spell, lexemes, List.flatMap_map, List.map_flatMap]
  simp only [lexemes_rename]

namespace Lexeme

variable {f g h : List Char → List Char} {x y : Lexeme} {n : List Char}

theorem name?_eq_some_iff : x.name? = some n ↔ x = word n ∧ isName n = true := by
  cases x
  case byte b => simp [name?]
  case word w =>
    simp only [name?, Option.ite_none_right_eq_some, Option.some.injEq, word.injEq]
    grind

theorem name?_rename (hf : ∀ n, isName n = true → isName (f n) = true) (x : Lexeme) :
    (x.rename f).name? = x.name?.map f := by
  cases x
  case byte b => rfl
  case word w =>
    by_cases hw : isName w = true
    case pos => simp [rename, name?, hw, hf w hw]
    case neg => simp [rename, name?, hw]

theorem rename_of_name?_eq_none (hx : x.name? = none) : x.rename f = x := by
  cases x
  case byte b => rfl
  case word w =>
    have hw : isName w = false := by simpa [name?] using hx
    simp [rename, hw]

-- Lexemes that become the same match, if what the names become tells them apart.
theorem matches_of_rename_eq (hg : ∀ n, isName n = true → isName (g n) = true)
    (hh : ∀ n, isName n = true → isName (h n) = true) (he : x.rename g = y.rename h)
    (hf : ∀ n m, x.name? = some n → y.name? = some m → g n = h m → f n = m) : Matches f x y := by
  have hn : x.name?.map g = y.name?.map h := by rw [← name?_rename hg, he, name?_rename hh]
  cases hx : x.name? <;> cases hy : y.name? <;> simp only [hx, hy, Option.map_none, Option.map_some] at hn
  case none.some | some.none => cases hn
  case none.none =>
    rw [rename_of_name?_eq_none hx, rename_of_name?_eq_none hy] at he
    exact he ▸ .same hx
  case some.some n m =>
    have ⟨hxn, hn'⟩ := name?_eq_some_iff.mp hx
    have ⟨hym, hm'⟩ := name?_eq_some_iff.mp hy
    rw [hxn, hym]
    exact .name hn' hm' (hf n m hx hy (Option.some.inj hn))

theorem Matches.rename_eq (hxy : Matches f x y) (hf : ∀ n, x.name? = some n → g n = h (f n)) :
    x.rename g = y.rename h := by
  cases hxy
  case name n m hn hm he =>
    have hg := hf n (name?_eq_some_iff.mpr ⟨rfl, hn⟩)
    simp [rename, hn, hm, hg, he]
  case same hx => rw [rename_of_name?_eq_none hx, rename_of_name?_eq_none hx]

theorem Matches.name? (hxy : Matches f x y) : Option.Rel (f · = ·) x.name? y.name? := by
  cases hxy
  case name n m hn hm he => simpa [Lexeme.name?, hn, hm] using he
  case same hx           => simp [hx]

end Lexeme

theorem mem_namesOf_iff {cs n : List Char} : n ∈ namesOf cs ↔ ∃ x ∈ lexemes cs, x.name? = some n := by
  rw [← filterMap_name?_lexemes, List.mem_filterMap]

-- There is room for all names of a text.
structure Limits.Suffice (l : Limits) (cs : List Char) : Prop where
  length : ∀ n ∈ namesOf cs, n.length ≤ l.nameLength
  count  : (namesOf cs).toFinset.card ≤ l.names

namespace Limits.Suffice

variable {l : Limits} {cs : List Char}

theorem isComplete (h : l.Suffice cs) : (canonicalize l cs).IsComplete := by
  rw [isComplete_iff_length_le, FirstSeen.length_eraseDups]
  exact ⟨fun n hn => by simpa [admits] using h.length n hn, h.count⟩

theorem roster_eq (h : l.Suffice cs) : l.roster (Token.ofText cs) = Roster.ofNames l.names (namesOf cs) :=
  Code.roster_eq (isComplete_iff.mp h.isComplete).left

theorem knows (h : l.Suffice cs) {n : List Char} (hn : n ∈ namesOf cs) :
    (Roster.ofNames l.names (namesOf cs)).knows n = true :=
  (isComplete_iff.mp h.isComplete).right n hn

theorem exists_number (h : l.Suffice cs) {n : List Char} (hn : n ∈ namesOf cs) :
    ∃ k, (Roster.ofNames l.names (namesOf cs)).number? n = some k ∧
      (l.roster (Token.ofText cs)).alias n = placeholder k := by
  have ⟨k, hk⟩ := Option.isSome_iff_exists.mp (h.knows hn)
  exact ⟨k, hk, by rw [h.roster_eq, Roster.alias, hk]⟩

theorem injOn_alias (h : l.Suffice cs) : Set.InjOn (l.roster (Token.ofText cs)).alias {n | n ∈ namesOf cs} := by
  intro n hn m hm he
  have ⟨j, hj, hnj⟩ := h.exists_number hn
  have ⟨k, hk, hmk⟩ := h.exists_number hm
  have hjk : j = k := placeholder_injective (hnj.symm.trans (he.trans hmk))
  rw [Roster.number?_of_knows (h.knows hn)] at hj
  rw [Roster.number?_of_knows (h.knows hm)] at hk
  exact FirstSeen.eq_of_idxOf?_eq (List.mem_eraseDups.mpr hn) (by rw [hj, hk, hjk])

end Limits.Suffice

theorem exists_bijOn_of_map_eq {α β γ : Type} [Nonempty β] {φ : α → γ} {ψ : β → γ} {xs : List α} {ys : List β}
    (hφ : Set.InjOn φ {x | x ∈ xs}) (hψ : Set.InjOn ψ {y | y ∈ ys}) (h : xs.map φ = ys.map ψ) :
    ∃ f, Set.BijOn f {x | x ∈ xs} {y | y ∈ ys} ∧ ∀ x ∈ xs, ψ (f x) = φ x := by
  have hi : φ '' {x | x ∈ xs} = ψ '' {y | y ∈ ys} := by
    ext z
    simpa using congrArg (z ∈ ·) h
  have hb := hψ.bijOn_image
  have hv := hb.invOn_invFunOn
  refine ⟨Function.invFunOn ψ {y | y ∈ ys} ∘ φ, (hb.symm hv.symm).comp (hi ▸ hφ.bijOn_image), fun x hx => ?_⟩
  exact hv.right (hi ▸ Set.mem_image_of_mem φ hx)

variable {l : Limits} {a b : List Char} {f : List Char → List Char}

theorem text_canonicalize_eq_iff_forall₂ :
    (canonicalize l a).text = (canonicalize l b).text ↔
      List.Forall₂ (fun x y => x.rename (l.roster (Token.ofText a)).alias = y.rename (l.roster (Token.ofText b)).alias)
        (lexemes a) (lexemes b) := by
  rw [← lexemes_injective.eq_iff, lexemes_canonicalize, lexemes_canonicalize, ← List.forall₂_eq_eq_eq,
    List.forall₂_map_left_iff, List.forall₂_map_right_iff]

theorem namesOf_canonicalize (l : Limits) (cs : List Char) :
    namesOf (canonicalize l cs).text = (namesOf cs).map (l.roster (Token.ofText cs)).alias := by
  simp only [← filterMap_name?_lexemes, lexemes_canonicalize, List.filterMap_map, List.map_filterMap]
  exact List.filterMap_congr fun x _ => Lexeme.name?_rename (Roster.isName_alias _) x

theorem exists_matches (ha : l.Suffice a) (hb : l.Suffice b) (h : (canonicalize l a).text = (canonicalize l b).text) :
    ∃ f, Set.BijOn f {n | n ∈ namesOf a} {n | n ∈ namesOf b} ∧
      List.Forall₂ (Lexeme.Matches f) (lexemes a) (lexemes b) := by
  have hn := congrArg namesOf h
  rw [namesOf_canonicalize, namesOf_canonicalize] at hn
  have ⟨f, hf, hfa⟩ := exists_bijOn_of_map_eq ha.injOn_alias hb.injOn_alias hn
  have ⟨hl, hz⟩ := List.forall₂_iff_zip.mp (text_canonicalize_eq_iff_forall₂.mp h)
  refine ⟨f, hf, List.forall₂_iff_zip.mpr ⟨hl, fun {x y} hxy => ?_⟩⟩
  have ⟨hx, hy⟩ := List.of_mem_zip hxy
  refine Lexeme.matches_of_rename_eq (Roster.isName_alias _) (Roster.isName_alias _) (hz hxy) fun n m hxn hym he => ?_
  have hn : n ∈ namesOf a := mem_namesOf_iff.mpr ⟨x, hx, hxn⟩
  have hm : m ∈ namesOf b := mem_namesOf_iff.mpr ⟨y, hy, hym⟩
  exact hb.injOn_alias (hf.mapsTo hn) hm ((hfa n hn).trans he)

theorem namesOf_of_matches (h : List.Forall₂ (Lexeme.Matches f) (lexemes a) (lexemes b)) :
    namesOf b = (namesOf a).map f := by
  have hn : List.Forall₂ (f · = ·) (namesOf a) (namesOf b) := by
    rw [← filterMap_name?_lexemes, ← filterMap_name?_lexemes]
    exact List.rel_filterMap (fun _ _ hxy => hxy.name?) h
  rw [← List.forall₂_map_left_iff, List.forall₂_eq_eq_eq] at hn
  exact hn.symm

theorem text_canonicalize_of_matches (ha : l.Suffice a) (hb : l.Suffice b) (hf : Set.InjOn f {n | n ∈ namesOf a})
    (h : List.Forall₂ (Lexeme.Matches f) (lexemes a) (lexemes b)) :
    (canonicalize l a).text = (canonicalize l b).text := by
  have hn := namesOf_of_matches h
  have hr : ∀ n ∈ namesOf a, (l.roster (Token.ofText a)).alias n = (l.roster (Token.ofText b)).alias (f n) := by
    intro n hna
    have hnb : f n ∈ namesOf b := hn ▸ List.mem_map_of_mem hna
    have ⟨j, hj, haj⟩ := ha.exists_number hna
    have ⟨k, hk, hbk⟩ := hb.exists_number hnb
    have he := Roster.number?_ofNames_map hf hna (ha.knows hna) (hn ▸ hb.knows hnb)
    have hjk : j = k := Option.some.inj (by rw [← hj, ← hk, ← he, hn])
    rw [haj, hbk, hjk]
  have ⟨hl, hz⟩ := List.forall₂_iff_zip.mp h
  refine text_canonicalize_eq_iff_forall₂.mpr (List.forall₂_iff_zip.mpr ⟨hl, fun {x y} hxy => ?_⟩)
  have hx := (List.of_mem_zip hxy).left
  exact (hz hxy).rename_eq fun n hxn => hr n (mem_namesOf_iff.mpr ⟨x, hx, hxn⟩)

-- Where there is room for all names, two texts become the same exactly if a bijection between their names takes one to
-- the other.
theorem text_canonicalize_eq_iff (ha : l.Suffice a) (hb : l.Suffice b) :
    (canonicalize l a).text = (canonicalize l b).text ↔
      ∃ f, Set.BijOn f {n | n ∈ namesOf a} {n | n ∈ namesOf b} ∧
        List.Forall₂ (Lexeme.Matches f) (lexemes a) (lexemes b) := by
  constructor
  case mp  => exact exists_matches ha hb
  case mpr => rintro ⟨f, hf, h⟩; exact text_canonicalize_of_matches ha hb hf.injOn h

-- Two texts with a placeholder in them and a character of two bytes.
def straight : List Char := "é=x+__VAR0__*x".toList

def crossed : List Char := "é=__VAR1__+x*__VAR1__".toList

def cross (n : List Char) : List Char :=
  if n = "x".toList then "__VAR1__".toList else "x".toList

theorem namesOf_straight : namesOf straight = ["x".toList, "__VAR0__".toList, "x".toList] := by
  decide +kernel

theorem namesOf_crossed : namesOf crossed = ["__VAR1__".toList, "x".toList, "__VAR1__".toList] := by
  decide +kernel

theorem bijOn_cross : Set.BijOn cross {n | n ∈ namesOf straight} {n | n ∈ namesOf crossed} := by
  have hm : ∀ n ∈ namesOf straight, cross n ∈ namesOf crossed := by
    rw [namesOf_straight, namesOf_crossed]
    decide
  have hi : ∀ n ∈ namesOf straight, ∀ m ∈ namesOf straight, cross n = cross m → n = m := by
    rw [namesOf_straight]
    decide
  have hs : ∀ m ∈ namesOf crossed, ∃ n ∈ namesOf straight, cross n = m := by
    rw [namesOf_straight, namesOf_crossed]
    decide
  exact ⟨hm, fun n hn m => hi n hn m, hs⟩

theorem matches_cross : List.Forall₂ (Lexeme.Matches cross) (lexemes straight) (lexemes crossed) := by
  have hs : lexemes straight = [.byte 0xC3, .byte 0xA9, .byte 0x3D, .word "x".toList, .byte 0x2B,
    .word "__VAR0__".toList, .byte 0x2A, .word "x".toList] := by decide +kernel
  have hc : lexemes crossed = [.byte 0xC3, .byte 0xA9, .byte 0x3D, .word "__VAR1__".toList, .byte 0x2B,
    .word "x".toList, .byte 0x2A, .word "__VAR1__".toList] := by decide +kernel
  have hn : isName "x".toList = true := by decide +kernel
  have hx : Lexeme.Matches cross (.word "x".toList) (.word "__VAR1__".toList) := .name hn (isName_placeholder 1) rfl
  have hv : Lexeme.Matches cross (.word "__VAR0__".toList) (.word "x".toList) := .name (isName_placeholder 0) hn rfl
  have hb (b : UInt8) : Lexeme.Matches cross (.byte b) (.byte b) := .same rfl
  rw [hs, hc]
  exact .cons (hb _) (.cons (hb _) (.cons (hb _) (.cons hx (.cons (hb _) (.cons hv (.cons (hb _) (.cons hx .nil)))))))

theorem text_canonicalize_straight :
    (canonicalize ⟨0, 2, 8⟩ straight).text = (canonicalize ⟨0, 2, 8⟩ crossed).text := by
  have hs : Limits.Suffice ⟨0, 2, 8⟩ straight := by
    constructor <;> rw [namesOf_straight] <;> decide
  have hc : Limits.Suffice ⟨0, 2, 8⟩ crossed := by
    constructor <;> rw [namesOf_crossed] <;> decide
  exact (text_canonicalize_eq_iff hs hc).mpr ⟨cross, bijOn_cross, matches_cross⟩

end DuplicateBlocks.Code
