import DuplicateBlocks.Proofs.Code.Equivalence

namespace DuplicateBlocks.Code

variable {l : Limits} {cs n m : List Char}

namespace Limits

-- The names of a text that are short enough to be replaced, each once, in the order in which they first occur.
def ranking (l : Limits) (cs : List Char) : List (List Char) :=
  ((namesOf cs).filter l.admits).eraseDups

def rank? (l : Limits) (cs n : List Char) : Option Nat :=
  (l.ranking cs).idxOf? n

-- What a part of the text becomes: a name at one of the first places is replaced, all else is kept.
def image (l : Limits) (cs : List Char) (x : Lexeme) : Lexeme :=
  match x.name?.bind (l.rank? cs) with
  | some k => if k < l.names then .word (placeholder k) else x
  | none   => x

theorem number?_roster (l : Limits) (cs n : List Char) :
    (l.roster (Token.ofText cs)).number? n = (l.rank? cs n).filter (· < l.names) := by
  rw [roster, Roster.number?_ofNames, FirstSeen.idxOf?_take_eq_filter]
  rfl

theorem isSome_rank?_iff : (l.rank? cs n).isSome ↔ n ∈ namesOf cs ∧ l.admits n = true := by
  rw [rank?, List.isSome_idxOf?, ranking, List.mem_eraseDups, List.mem_filter]

theorem rename_alias (l : Limits) (cs : List Char) (x : Lexeme) :
    x.rename (l.roster (Token.ofText cs)).alias = l.image cs x := by
  cases x
  case byte b => rfl
  case word w =>
    cases hw : isName w
    case false => simp [Lexeme.rename, image, Lexeme.name?, hw]
    case true =>
      simp only [Lexeme.rename, image, Lexeme.name?, hw, if_true, Option.bind_some, Roster.alias, number?_roster]
      cases hk : l.rank? cs w
      case none   => rfl
      case some k => by_cases hl : k < l.names <;> simp [Option.filter_some, hl]

end Limits

namespace Canonical

-- The canonical text, said of the parts of a text and the places of its names.
structure Substitution (l : Limits) (cs : List Char) (c : Canonical) : Prop where
  -- The parts are the longest words there are, and the bytes of all other characters.
  parts     : ∃ ts, Token.Spaced ts ∧ Token.spell ts = cs ∧ lexemes cs = ts.flatMap Token.lexemes
  text      : Text.Utf8.encode c.text = (lexemes cs).flatMap fun x => (l.image cs x).bytes
  untracked : c.untracked = (lexemes cs).countP fun x => (x.name?.bind (l.rank? cs)).any (l.names ≤ ·)
  tooLong   : c.tooLong = (lexemes cs).countP fun x => x.name?.any (l.nameLength < ·.length)

end Canonical

theorem countP_any_name?_lexemes (q : List Char → Bool) (cs : List Char) :
    ((lexemes cs).countP fun x => x.name?.any q) = (namesOf cs).countP q := by
  rw [← filterMap_name?_lexemes, List.countP_filterMap]
  refine List.countP_congr fun x _ => ?_
  cases x.name? <;> simp

theorem Limits.any_rank?_eq (hn : n ∈ namesOf cs) :
    (l.rank? cs n).any (l.names ≤ ·) = (l.admits n && !(l.roster (Token.ofText cs)).knows n) := by
  have ha : (l.rank? cs n).isSome = l.admits n := by
    rw [Bool.eq_iff_iff, isSome_rank?_iff, and_iff_right hn]
  rw [Roster.knows, number?_roster, ← ha]
  cases l.rank? cs n
  case none   => rfl
  case some k => by_cases hk : k < l.names <;> simp [Option.filter_some, hk]; omega

theorem substitution_canonicalize (l : Limits) (cs : List Char) : (canonicalize l cs).Substitution l cs := by
  constructor
  case parts => exact ⟨_, Token.spaced_ofText cs, Token.spell_ofText cs, rfl⟩
  case text =>
    rw [← flatMap_bytes_lexemes, lexemes_canonicalize, List.flatMap_map]
    simp only [Limits.rename_alias]
  case untracked =>
    simp only [Option.any_bind, Function.comp_def]
    rw [canonicalize_eq, countP_any_name?_lexemes]
    exact List.countP_congr fun n hn => by rw [Limits.any_rank?_eq hn]
  case tooLong =>
    rw [canonicalize_eq, countP_any_name?_lexemes]
    exact List.countP_congr fun n _ => by simp [Limits.admits]

namespace Limits

-- The name `n` is replaced and the name `m` is not, but is spelled like the placeholder of `n`.
def Captures (l : Limits) (cs n m : List Char) : Prop :=
  ∃ k < l.names, l.rank? cs n = some k ∧ m = placeholder k ∧ ∀ j, l.rank? cs m = some j → l.names ≤ j

theorem number?_roster_eq_some_iff {k : Nat} :
    (l.roster (Token.ofText cs)).number? n = some k ↔ l.rank? cs n = some k ∧ k < l.names := by
  rw [number?_roster, Option.filter_eq_some_iff, decide_eq_true_eq]

theorem number?_roster_eq_none_iff :
    (l.roster (Token.ofText cs)).number? n = none ↔ ∀ k, l.rank? cs n = some k → l.names ≤ k := by
  simp [number?_roster, Option.filter_eq_none_iff]

namespace Captures

theorem number?_left (h : l.Captures cs n m) : (l.roster (Token.ofText cs)).number? n ≠ none := by
  have ⟨k, hl, hk, _⟩ := h
  simp [number?_roster_eq_some_iff.mpr ⟨hk, hl⟩]

theorem number?_right (h : l.Captures cs n m) : (l.roster (Token.ofText cs)).number? m = none := by
  have ⟨_, _, _, _, hm⟩ := h
  exact number?_roster_eq_none_iff.mpr hm

end Captures

theorem captures_iff {k : Nat} (hn : (l.roster (Token.ofText cs)).number? n = some k)
    (hm : (l.roster (Token.ofText cs)).number? m = none) : l.Captures cs n m ↔ placeholder k = m := by
  have ⟨hk, hl⟩ := number?_roster_eq_some_iff.mp hn
  constructor
  case mp =>
    rintro ⟨j, _, hj, he, _⟩
    rw [he, Option.some.inj (hk.symm.trans hj)]
  case mpr => exact fun he => ⟨k, hl, hk, he.symm, number?_roster_eq_none_iff.mp hm⟩

theorem eq_of_number?_roster {k : Nat} (hn : (l.roster (Token.ofText cs)).number? n = some k)
    (hm : (l.roster (Token.ofText cs)).number? m = some k) : n = m := by
  have ⟨hn, _⟩ := number?_roster_eq_some_iff.mp hn
  have ⟨hm, _⟩ := number?_roster_eq_some_iff.mp hm
  have hr : n ∈ l.ranking cs := List.isSome_idxOf?.mp (Option.isSome_iff_exists.mpr ⟨k, hn⟩)
  exact FirstSeen.eq_of_idxOf?_eq hr (hn.trans hm.symm)

theorem alias_eq_alias_iff (hne : n ≠ m) :
    (l.roster (Token.ofText cs)).alias n = (l.roster (Token.ofText cs)).alias m ↔
      l.Captures cs n m ∨ l.Captures cs m n := by
  cases hn : (l.roster (Token.ofText cs)).number? n <;> cases hm : (l.roster (Token.ofText cs)).number? m <;>
    simp only [Roster.alias, hn, hm]
  case none.none =>
    exact iff_of_false hne (not_or.mpr ⟨fun h => h.number?_left hn, fun h => h.number?_left hm⟩)
  case some.none j =>
    rw [captures_iff hn hm, or_iff_left fun h => h.number?_left hm]
  case none.some k =>
    rw [captures_iff hm hn, or_iff_right fun h => h.number?_left hn, eq_comm]
  case some.some j k =>
    have hr : ¬(l.Captures cs n m ∨ l.Captures cs m n) := by
      rintro (h | h)
      · simp [h.number?_right] at hm
      · simp [h.number?_right] at hn
    refine iff_of_false (fun he => hne ?_) hr
    exact eq_of_number?_roster hn (placeholder_injective he ▸ hm)

theorem not_captures_of_isComplete (hc : (canonicalize l cs).IsComplete) (hm : m ∈ namesOf cs) :
    ¬l.Captures cs n m := by
  have ⟨ha, hk⟩ := isComplete_iff.mp hc
  intro h
  have hr := h.number?_right
  rw [roster_eq ha] at hr
  simpa [Roster.knows, hr] using hk m hm

end Limits

theorem mem_namesOf_of_getElem? {i : Nat} (hn : isName n = true) (hi : (lexemes cs)[i]? = some (.word n)) :
    n ∈ namesOf cs :=
  mem_namesOf_iff.mpr ⟨_, List.mem_of_getElem? hi, Lexeme.name?_eq_some_iff.mpr ⟨rfl, hn⟩⟩

theorem getElem?_lexemes_canonicalize {i : Nat} (hn : isName n = true) (hi : (lexemes cs)[i]? = some (.word n)) :
    (lexemes (canonicalize l cs).text)[i]? = some (.word ((l.roster (Token.ofText cs)).alias n)) := by
  simp [lexemes_canonicalize, hi, Lexeme.rename, hn]

-- Different names in two places become the same exactly if one of them captures the other, which takes a name that is
-- not replaced.
theorem getElem?_lexemes_canonicalize_eq_iff {i j : Nat} (hn : isName n = true) (hm : isName m = true) (hne : n ≠ m)
    (hi : (lexemes cs)[i]? = some (.word n)) (hj : (lexemes cs)[j]? = some (.word m)) :
    ((lexemes (canonicalize l cs).text)[i]? = (lexemes (canonicalize l cs).text)[j]? ↔
      l.Captures cs n m ∨ l.Captures cs m n) ∧
    ((canonicalize l cs).IsComplete →
      (lexemes (canonicalize l cs).text)[i]? ≠ (lexemes (canonicalize l cs).text)[j]?) := by
  have he : (lexemes (canonicalize l cs).text)[i]? = (lexemes (canonicalize l cs).text)[j]? ↔
      l.Captures cs n m ∨ l.Captures cs m n := by
    rw [getElem?_lexemes_canonicalize hn hi, getElem?_lexemes_canonicalize hm hj, ← Limits.alias_eq_alias_iff hne]
    simp
  refine ⟨he, fun hc h => ?_⟩
  cases he.mp h
  case inl h => exact Limits.not_captures_of_isComplete hc (mem_namesOf_of_getElem? hm hj) h
  case inr h => exact Limits.not_captures_of_isComplete hc (mem_namesOf_of_getElem? hn hi) h

-- A name that is spelled like the placeholder of the name before it.
def assumed : List Char := "a = __VAR0__;".toList

theorem getElem?_lexemes_assumed :
    (lexemes assumed)[0]? = some (.word "a".toList) ∧ (lexemes assumed)[4]? = some (.word "__VAR0__".toList) := by
  decide +kernel

theorem getElem?_lexemes_canonicalize_assumed :
    (lexemes (canonicalize ⟨0, 1000, 4⟩ assumed).text)[0]? =
      (lexemes (canonicalize ⟨0, 1000, 4⟩ assumed).text)[4]? := by
  have ⟨ha, hv⟩ := getElem?_lexemes_assumed
  have hr : Limits.rank? ⟨0, 1000, 4⟩ assumed "__VAR0__".toList = none := by decide +kernel
  have hc : Limits.Captures ⟨0, 1000, 4⟩ assumed "a".toList "__VAR0__".toList :=
    ⟨0, by decide, by decide +kernel, by decide +kernel, fun j hj => by rw [hr] at hj; cases hj⟩
  exact (getElem?_lexemes_canonicalize_eq_iff (by decide +kernel) (isName_placeholder 0) (by decide) ha hv).left.mpr
    (.inl hc)

-- There is room for one name only, and the other one becomes the same.
theorem lexemes_canonicalize_assumed_eq :
    isName "a".toList = true ∧ isName "__VAR0__".toList = true ∧
      (lexemes assumed)[0]? = some (.word "a".toList) ∧ (lexemes assumed)[4]? = some (.word "__VAR0__".toList) ∧
      (lexemes (canonicalize ⟨1048576, 1, 256⟩ assumed).text)[0]? =
        (lexemes (canonicalize ⟨1048576, 1, 256⟩ assumed).text)[4]? := by
  have ⟨ha, hv⟩ := getElem?_lexemes_assumed
  refine ⟨by decide +kernel, isName_placeholder 0, ha, hv, ?_⟩
  rw [lexemes_canonicalize, List.map_congr_left fun x _ => Limits.rename_alias ⟨1048576, 1, 256⟩ assumed x]
  decide +kernel

end DuplicateBlocks.Code
