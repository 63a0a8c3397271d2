import DuplicateBlocks.Proofs.Code.Pass
import Mathlib.Data.List.Basic

namespace DuplicateBlocks.Code

-- Words that start with no digit. Some of them are reserved, the others are names.
def isIdentifier : List Char → Bool
  | []      => false
  | c :: cs => isWordChar c && !c.isDigit && cs.all isWordChar

-- An injective map of identifiers that leaves the reserved ones alone.
structure Renaming where
  toFun      : List Char → List Char
  identifier : ∀ w, isIdentifier w = true → isIdentifier (toFun w) = true
  injective  : ∀ v w, isIdentifier v = true → isIdentifier w = true → toFun v = toFun w → v = w
  reserved   : ∀ w ∈ Code.reserved, toFun w = w

theorem isIdentifier_of_mem_reserved : ∀ w ∈ reserved, isIdentifier w = true := by
  decide +kernel

theorem isWord_of_isIdentifier {w : List Char} (h : isIdentifier w = true) : IsWord w := by
  cases w
  case nil => simp [isIdentifier] at h
  case cons c cs =>
    have ⟨⟨hc, _⟩, hcs⟩ : (isWordChar c = true ∧ c.isDigit = false) ∧ ∀ d ∈ cs, isWordChar d = true := by
      simpa [isIdentifier] using h
    exact ⟨List.cons_ne_nil c cs, List.forall_mem_cons.mpr ⟨hc, hcs⟩⟩

theorem isName_iff {w : List Char} (h : IsWord w) : isName w = true ↔ isIdentifier w = true ∧ w ∉ reserved := by
  cases w
  case nil => exact absurd rfl h.ne_nil
  case cons c cs =>
    have ⟨hc, hcs⟩ := List.forall_mem_cons.mp h.all
    have ha : cs.all isWordChar = true := List.all_eq_true.mpr hcs
    simp [isName, isIdentifier, hc, ha]

namespace Renaming

variable (ρ : Renaming)

-- A word after the renaming. Words that start with a digit stay as they are.
def word (w : List Char) : List Char :=
  if isIdentifier w then ρ.toFun w else w

def token : Token → Token
  | .word w => .word (ρ.word w)
  | .mark c => .mark c

def rename (cs : List Char) : List Char :=
  Token.spell ((Token.ofText cs).map ρ.token)

theorem isIdentifier_word (w : List Char) : isIdentifier (ρ.word w) = isIdentifier w := by
  unfold word
  split
  case isTrue h  => rw [h, ρ.identifier w h]
  case isFalse h => rfl

theorem word_injective : Function.Injective ρ.word := by
  intro v w h
  have hi : isIdentifier v = isIdentifier w := by rw [← ρ.isIdentifier_word v, h, ρ.isIdentifier_word]
  unfold word at h
  cases hv : isIdentifier v <;> have hw := hi ▸ hv <;> simp only [hv, hw] at h
  case false => exact h
  case true  => exact ρ.injective v w hv hw h

theorem isWord_word {w : List Char} (h : IsWord w) : IsWord (ρ.word w) := by
  unfold word
  split
  case isTrue hi => exact isWord_of_isIdentifier (ρ.identifier w hi)
  case isFalse   => exact h

-- Since reserved identifiers stay, no other identifier can become one.
theorem word_mem_reserved {w : List Char} : ρ.word w ∈ Code.reserved ↔ w ∈ Code.reserved := by
  have hr : ∀ v ∈ Code.reserved, ρ.word v = v := by
    intro v hv
    rw [word, if_pos (isIdentifier_of_mem_reserved v hv), ρ.reserved v hv]
  constructor
  case mp =>
    intro h
    have he : ρ.word w = w := (ρ.word_injective (hr _ h) :)
    exact he ▸ h
  case mpr =>
    intro h
    exact (hr w h).symm ▸ h

theorem word_of_not_isName {w : List Char} (h : IsWord w) (hn : isName w = false) : ρ.word w = w := by
  have hn := mt (isName_iff h).mpr (Bool.not_eq_true _ ▸ hn)
  unfold word
  split
  case isTrue hi => exact ρ.reserved w (not_not.mp fun hr => hn ⟨hi, hr⟩)
  case isFalse   => rfl

theorem isName_word {w : List Char} (h : IsWord w) : isName (ρ.word w) = isName w := by
  rw [Bool.eq_iff_iff, isName_iff h, isName_iff (ρ.isWord_word h), isIdentifier_word, word_mem_reserved]

def swap (v w : List Char) (hv : isIdentifier v = true ∧ v ∉ Code.reserved)
    (hw : isIdentifier w = true ∧ w ∉ Code.reserved) : Renaming where
  toFun u := if u = v then w else if u = w then v else u
  identifier u hu := by
    split
    case isTrue  => exact hw.left
    case isFalse => split <;> simp_all
  injective u u' _ _ h := by
    grind
  reserved u hu := by
    have hv : u ≠ v := fun he => hv.right (he ▸ hu)
    have hw : u ≠ w := fun he => hw.right (he ▸ hu)
    simp [hv, hw]

end Renaming

def namesOf (cs : List Char) : List (List Char) :=
  (Token.ofText cs).filterMap Token.name?

def Token.mapWord (f : List Char → List Char) : Token → Token
  | word w => word (f w)
  | mark c => mark c

theorem Renaming.token_eq (ρ : Renaming) : ρ.token = Token.mapWord ρ.word := by
  funext t
  cases t <;> rfl

-- A text and a copy of it in which each word is written otherwise. Words are as long as they can be.
inductive Renamed (f : List Char → List Char) : List Char → List Char → Prop
  | nil : Renamed f [] []
  | mark {c : Char} {cs ds : List Char} : isWordChar c = false → Renamed f cs ds → Renamed f (c :: cs) (c :: ds)
  | word {w cs ds : List Char} :
      IsWord w → IsWord (f w) → EndsWord cs → Renamed f cs ds → Renamed f (w ++ cs) (f w ++ ds)

namespace Renamed

variable {f : List Char → List Char} {cs ds es fs : List Char}

theorem endsWord (h : Renamed f cs ds) (hcs : EndsWord cs) : EndsWord ds := by
  cases h
  case nil           => exact .nil
  case mark hc _     => exact .cons hc _
  case word hw _ _ _ => exact absurd hcs (not_endsWord hw _)

theorem ofText (h : Renamed f cs ds) : Token.ofText ds = (Token.ofText cs).map (Token.mapWord f) := by
  induction h
  case nil => rfl
  case mark hc _ hi =>
    rw [Token.ofText_mark hc, Token.ofText_mark hc, hi]
    rfl
  case word hw hf hcs h hi =>
    rw [Token.ofText_word hw hcs, Token.ofText_word hf (h.endsWord hcs), hi]
    rfl

theorem exists_renamed (hf : ∀ w, IsWord w → IsWord (f w)) (cs : List Char) : ∃ ds, Renamed f cs ds := by
  induction cs using wordInduction
  case nil => exact ⟨[], .nil⟩
  case mark c cs hc hi =>
    have ⟨ds, h⟩ := hi
    exact ⟨c :: ds, h.mark hc⟩
  case word w cs hw hcs hi =>
    have ⟨ds, h⟩ := hi
    exact ⟨f w ++ ds, h.word hw (hf w hw) hcs⟩

theorem spell_mapWord (hf : ∀ w, IsWord w → IsWord (f w)) (cs : List Char) :
    Renamed f cs (Token.spell ((Token.ofText cs).map (Token.mapWord f))) := by
  have ⟨ds, h⟩ := exists_renamed hf cs
  rwa [← h.ofText, Token.spell_ofText]

theorem rename (ρ : Renaming) (cs : List Char) : Renamed ρ.word cs (ρ.rename cs) := by
  rw [Renaming.rename, ρ.token_eq]
  exact spell_mapWord (fun _ => ρ.isWord_word) cs

theorem unique (h : Renamed f cs ds) (h' : Renamed f cs es) : ds = es := by
  rw [← Token.spell_ofText ds, h.ofText, ← h'.ofText, Token.spell_ofText]

theorem append (h : Renamed f cs ds) (h' : Renamed f es fs) (he : EndsWord es) :
    Renamed f (cs ++ es) (ds ++ fs) := by
  induction h
  case nil => exact h'
  case mark hc _ hi => exact hi.mark hc
  case word w cs ds hw hf hcs _ hi =>
    have hce : EndsWord (cs ++ es) := by
      cases cs
      case nil  => exact he
      case cons => exact hcs
    simpa using hi.word hw hf hce

end Renamed

def Canonical.IsComplete (c : Canonical) : Prop :=
  c.untracked = 0 ∧ c.tooLong = 0

theorem roster_eq {l : Limits} {cs : List Char} (h : ∀ n ∈ namesOf cs, l.admits n = true) :
    l.roster (Token.ofText cs) = Roster.ofNames l.names (namesOf cs) :=
  congrArg _ (List.filter_eq_self.mpr h)

theorem untracked_eq_zero_iff {l : Limits} {cs : List Char} :
    (canonicalize l cs).untracked = 0 ↔
      ∀ n ∈ namesOf cs, l.admits n = true → (l.roster (Token.ofText cs)).knows n = true := by
  simp only [canonicalize_eq, Canonical.ofTokens, List.countP_eq_zero, Bool.and_eq_true, Bool.not_eq_true', not_and,
    Bool.not_eq_false]
  rfl

theorem isComplete_iff {l : Limits} {cs : List Char} :
    (canonicalize l cs).IsComplete ↔ (∀ n ∈ namesOf cs, l.admits n = true) ∧
      ∀ n ∈ namesOf cs, (Roster.ofNames l.names (namesOf cs)).knows n = true := by
  have hl : (canonicalize l cs).tooLong = 0 ↔ ∀ n ∈ namesOf cs, l.admits n = true := by
    simp [canonicalize_eq, Canonical.ofTokens, namesOf]
  rw [Canonical.IsComplete, and_comm, hl, untracked_eq_zero_iff]
  refine and_congr_right fun ha => ?_
  rw [roster_eq ha]
  exact forall₂_congr fun n hn => by simp [ha n hn]

theorem isComplete_iff_length_le {l : Limits} {cs : List Char} :
    (canonicalize l cs).IsComplete ↔
      (∀ n ∈ namesOf cs, l.admits n = true) ∧ (namesOf cs).eraseDups.length ≤ l.names := by
  rw [isComplete_iff, Roster.forall_knows_iff]

namespace Renamed

variable {ρ : Renaming} {cs ds : List Char} {l : Limits}

theorem name?_token {t : Token} (ht : t ∈ Token.ofText cs) : (ρ.token t).name? = t.name?.map ρ.word := by
  cases t
  case mark c => rfl
  case word w =>
    have hw : IsWord w := Token.isWord_of_mem_ofText ht
    simp only [Renaming.token, Token.name?, ρ.isName_word hw]
    split <;> rfl

theorem namesOf (h : Renamed ρ.word cs ds) : namesOf ds = (Code.namesOf cs).map ρ.word := by
  rw [Code.namesOf, Code.namesOf, h.ofText, ← ρ.token_eq, List.filterMap_map, List.map_filterMap]
  exact List.filterMap_congr fun t ht => name?_token ht

-- Where both texts are complete, a token and its copy become the same.
theorem canonical_token (h : Renamed ρ.word cs ds) (hc : (canonicalize l cs).IsComplete)
    (hd : (canonicalize l ds).IsComplete) {t : Token} (ht : t ∈ Token.ofText cs) :
    (ρ.token t).canonical (l.roster (Token.ofText ds)) = t.canonical (l.roster (Token.ofText cs)) := by
  have ⟨hac, hkc⟩ := isComplete_iff.mp hc
  have ⟨had, hkd⟩ := isComplete_iff.mp hd
  rw [h.namesOf] at hkd
  rw [roster_eq hac, roster_eq had, h.namesOf, Token.canonical, Token.canonical, name?_token ht]
  cases hn : t.name?
  case some n =>
    have hm : n ∈ Code.namesOf cs := List.mem_filterMap.mpr ⟨t, ht, hn⟩
    have hk := hkc n hm
    have he := Roster.number?_ofNames_map ρ.word_injective.injOn hm hk (hkd _ (List.mem_map_of_mem hm))
    obtain ⟨k, hk⟩ := Option.isSome_iff_exists.mp hk
    simp only [Option.map_some, Option.bind_some, he, hk]
  case none =>
    simp only [Option.map_none, Option.bind_none]
    cases t
    case mark c => rfl
    case word w =>
      have hw : isName w = false := by simpa [Token.name?] using hn
      exact ρ.word_of_not_isName (Token.isWord_of_mem_ofText ht) hw

theorem canonicalize (h : Renamed ρ.word cs ds) (hc : (canonicalize l cs).IsComplete)
    (hd : (Code.canonicalize l ds).IsComplete) : Code.canonicalize l ds = Code.canonicalize l cs := by
  have ht : (Code.canonicalize l ds).text = (Code.canonicalize l cs).text := by
    rw [canonicalize_eq, canonicalize_eq, Canonical.ofTokens, Canonical.ofTokens, h.ofText, ← ρ.token_eq,
      List.flatMap_map, ρ.token_eq, ← h.ofText]
    exact List.flatMap_congr fun t ht => h.canonical_token hc hd ht
  ext1
  case text      => exact ht
  case untracked => rw [hc.left, hd.left]
  case tooLong   => rw [hc.right, hd.right]

end Renamed
end DuplicateBlocks.Code
