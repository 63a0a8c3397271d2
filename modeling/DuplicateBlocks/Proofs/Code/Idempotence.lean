import DuplicateBlocks.Proofs.Code.Aliases
import DuplicateBlocks.Proofs.Code.Layout
import DuplicateBlocks.Settings

namespace DuplicateBlocks.Code

variable {l : Limits} {cs n : List Char} {j k count : Nat}

theorem Token.rename_eq (f : List Char → List Char) :
    Token.rename f = Token.mapWord fun w => if isName w then f w else w := by
  funext t
  cases t <;> rfl

theorem renamed_canonicalize (l : Limits) (cs : List Char) :
    Renamed (fun w => if isName w then (l.roster (Token.ofText cs)).alias w else w) cs (canonicalize l cs).text := by
  rw [text_canonicalize, Token.rename_eq]
  refine Renamed.spell_mapWord (fun w hw => ?_) cs
  split
  case isTrue  => exact Roster.isWord_alias _ w hw
  case isFalse => exact hw

theorem strip_canonicalize (h : strip cs = cs) : strip (canonicalize l cs).text = (canonicalize l cs).text := by
  have hr := renamed_canonicalize l cs
  have hs := hr.strip
  rw [h] at hs
  exact hs.unique hr

theorem length_placeholder (k : Nat) : (placeholder k).length = (Nat.toDigits 10 k).length + 7 := by
  have hp : placeholder k = "__VAR".toList ++ Nat.toDigits 10 k ++ "__".toList := rfl
  simp [hp]

theorem length_placeholder_le (h : j ≤ k) : (placeholder j).length ≤ (placeholder k).length := by
  have hk : 0 < (Nat.toDigits 10 k).length := Nat.length_toDigits_pos
  have hl : k < 10 ^ (Nat.toDigits 10 k).length := (Nat.length_toDigits_le_iff (by decide) hk).mp (Nat.le_refl _)
  rw [length_placeholder, length_placeholder, Nat.add_le_add_iff_right, Nat.length_toDigits_le_iff (by decide) hk]
  exact Nat.lt_of_le_of_lt h hl

namespace Limits

-- Every placeholder that may be written is short enough to be replaced.
def AdmitsPlaceholders (l : Limits) : Prop :=
  ∀ k < l.names, (placeholder k).length ≤ l.nameLength

theorem admitsPlaceholders_iff :
    l.AdmitsPlaceholders ↔ l.names = 0 ∨ (placeholder (l.names - 1)).length ≤ l.nameLength := by
  constructor
  case mp =>
    intro h
    by_cases hl : l.names = 0
    case pos => exact .inl hl
    case neg => exact .inr (h _ (by omega))
  case mpr =>
    rintro (h | h) k hk
    · omega
    · exact Nat.le_trans (length_placeholder_le (by omega)) h

theorem admitsPlaceholders_default : ({} : Settings).code.AdmitsPlaceholders :=
  admitsPlaceholders_iff.mpr (.inr (by rw [length_placeholder]; decide))

def placeholders (count : Nat) : List (List Char) :=
  (List.range count).map placeholder

theorem nodup_placeholders (count : Nat) : (placeholders count).Nodup :=
  List.nodup_range.map placeholder_injective

theorem filter_placeholders (h : ∀ k < count, (placeholder k).length ≤ l.nameLength) :
    (placeholders count).filter l.admits = placeholders count := by
  refine List.filter_eq_self.mpr fun n hn => ?_
  have ⟨k, hk, he⟩ := List.mem_map.mp hn
  simpa [admits, ← he] using h k (List.mem_range.mp hk)

theorem exists_filter_placeholders (l : Limits) (count : Nat) :
    ∃ m, (placeholders count).filter l.admits = placeholders m := by
  induction count
  case zero => exact ⟨0, rfl⟩
  case succ k hi =>
    have hs : placeholders (k + 1) = placeholders k ++ [placeholder k] := by simp [placeholders, List.range_succ]
    have ⟨m, hm⟩ := hi
    cases ha : l.admits (placeholder k)
    case false => exact ⟨m, by simp [hs, ha, hm]⟩
    case true  =>
      have ha : (placeholder k).length ≤ l.nameLength := by simpa [admits] using ha
      refine ⟨k + 1, filter_placeholders fun j hj => ?_⟩
      exact Nat.le_trans (length_placeholder_le (Nat.le_of_lt_succ hj)) ha

theorem number?_roster_eq_idxOf? (l : Limits) (cs n : List Char) :
    (l.roster (Token.ofText cs)).number? n = ((l.ranking cs).take l.names).idxOf? n :=
  Roster.number?_ofNames l.names _ n

theorem nodup_ranking (l : Limits) (cs : List Char) : (l.ranking cs).Nodup :=
  FirstSeen.nodup_eraseDups _

theorem admits_of_admits_alias (h : l.admits ((l.roster (Token.ofText cs)).alias n) = true) : l.admits n = true := by
  by_contra ha
  rw [Roster.alias, number?_roster_of_not_admits (Bool.eq_false_iff.mpr ha)] at h
  exact ha h

theorem map_alias_take_ranking (l : Limits) (cs : List Char) :
    ((l.ranking cs).take l.names).map (l.roster (Token.ofText cs)).alias =
      placeholders ((l.ranking cs).take l.names).length := by
  refine List.ext_getElem (by simp [placeholders]) fun k hk _ => ?_
  have hk : k < ((l.ranking cs).take l.names).length := by simpa using hk
  have hn : (l.roster (Token.ofText cs)).number? ((l.ranking cs).take l.names)[k] = some k := by
    rw [number?_roster_eq_idxOf?, List.idxOf?_eq_some_iff]
    have hd : ((l.ranking cs).take l.names).Nodup := (nodup_ranking l cs).take
    exact ⟨hk, rfl, fun j hj he => Nat.ne_of_lt hj (hd.getElem_inj_iff.mp he)⟩
  rw [List.getElem_map, Roster.alias, hn]
  simp [placeholders]

theorem map_alias_drop_ranking (l : Limits) (cs : List Char) :
    ((l.ranking cs).drop l.names).map (l.roster (Token.ofText cs)).alias = (l.ranking cs).drop l.names := by
  refine (List.map_congr_left fun n hn => ?_).trans (List.map_id _)
  have hd := List.disjoint_take_drop (nodup_ranking l cs) (Nat.le_refl l.names)
  have hk : (l.roster (Token.ofText cs)).number? n = none := by
    rw [number?_roster_eq_idxOf?, List.idxOf?_eq_none_iff]
    exact fun ht => hd ht hn
  rw [Roster.alias, hk, id]

-- The short names of the canonical text: first the placeholders, then the names for which there was no room, each once.
theorem ranking_canonicalize (l : Limits) (cs : List Char) :
    l.ranking (canonicalize l cs).text =
      (placeholders ((l.ranking cs).take l.names).length ++ (l.ranking cs).drop l.names).eraseDups.filter l.admits := by
  have hf : l.admits ∘ (l.roster (Token.ofText cs)).alias =
      fun n => (l.admits ∘ (l.roster (Token.ofText cs)).alias) n && l.admits n := by
    funext n
    exact (Bool.and_eq_left_iff_imp.mpr admits_of_admits_alias).symm
  calc l.ranking (canonicalize l cs).text
    _ = (((namesOf cs).map (l.roster (Token.ofText cs)).alias).filter l.admits).eraseDups := by
      rw [ranking, namesOf_canonicalize]
    _ = ((((namesOf cs).filter l.admits).map (l.roster (Token.ofText cs)).alias).filter l.admits).eraseDups := by
      rw [List.filter_map, List.filter_map, List.filter_filter, ← hf]
    _ = ((l.ranking cs).map (l.roster (Token.ofText cs)).alias).eraseDups.filter l.admits := by
      rw [FirstSeen.eraseDups_filter, ranking, FirstSeen.eraseDups_map_eraseDups]
    _ = _ := by
      rw [← map_alias_take_ranking, ← map_alias_drop_ranking, ← List.map_append, List.take_append_drop]

theorem drop_ranking_eq_nil (h : (canonicalize l cs).untracked = 0) : (l.ranking cs).drop l.names = [] := by
  have hk : ∀ n ∈ (namesOf cs).filter l.admits, (l.roster (Token.ofText cs)).knows n = true := by
    intro n hn
    have ⟨hn, ha⟩ := List.mem_filter.mp hn
    exact untracked_eq_zero_iff.mp h n hn ha
  exact List.drop_eq_nil_iff.mpr (Roster.forall_knows_iff.mp hk)

-- If there was room for all names, the placeholders that are too long are the last ones. If not, none is too long.
theorem exists_take_ranking_canonicalize (h : l.AdmitsPlaceholders ∨ (canonicalize l cs).untracked = 0) :
    ∃ count, (l.ranking (canonicalize l cs).text).take l.names = placeholders count := by
  rw [ranking_canonicalize]
  by_cases hd : (l.ranking cs).drop l.names = []
  case pos =>
    have ⟨m, hm⟩ := exists_filter_placeholders l ((l.ranking cs).take l.names).length
    refine ⟨min l.names m, ?_⟩
    rw [hd, List.append_nil, FirstSeen.eraseDups_of_nodup (nodup_placeholders _), hm, placeholders, ← List.map_take,
      List.take_range]
    rfl
  case neg =>
    have hp : l.AdmitsPlaceholders := h.resolve_right (mt drop_ranking_eq_nil hd)
    have hl : ((l.ranking cs).take l.names).length = l.names := by
      rw [List.drop_eq_nil_iff] at hd
      rw [List.length_take]
      omega
    refine ⟨l.names, ?_⟩
    rw [hl, List.eraseDups_append, FirstSeen.eraseDups_of_nodup (nodup_placeholders _), List.filter_append,
      filter_placeholders hp]
    exact List.take_left' (by simp [placeholders])

-- Then every name of the canonical text that is replaced has the number it is spelled with.
theorem alias_canonicalize (h : l.AdmitsPlaceholders ∨ (canonicalize l cs).untracked = 0) (n : List Char) :
    (l.roster (Token.ofText (canonicalize l cs).text)).alias n = n := by
  have ⟨count, hc⟩ := exists_take_ranking_canonicalize h
  have hn := number?_roster_eq_idxOf? l (canonicalize l cs).text n
  rw [hc] at hn
  rw [Roster.alias]
  split
  case h_2 => rfl
  case h_1 k hk =>
    obtain ⟨_, he, _⟩ := List.idxOf?_eq_some_iff.mp (hn.symm.trans hk)
    simpa [placeholders] using he

end Limits

theorem canonicalize_canonicalize (h : l.AdmitsPlaceholders ∨ (canonicalize l cs).untracked = 0) :
    (canonicalize l (canonicalize l cs).text).text = (canonicalize l cs).text := by
  apply lexemes_injective
  rw [lexemes_canonicalize]
  refine (List.map_congr_left fun x _ => ?_).trans (List.map_id _)
  cases x <;> simp [Lexeme.rename, Limits.alias_canonicalize h]

-- The default settings admit all placeholders. Where a text is too large, or its normal form is, nothing is done to it.
theorem normalize_normalize :
    ({} : Settings).code.AdmitsPlaceholders ∧
      ∀ (l : Limits) (raw : List Char), l.AdmitsPlaceholders ∨ (normalize l raw).untracked = 0 →
        (normalize l (normalize l raw).text).text = (normalize l raw).text := by
  refine ⟨Limits.admitsPlaceholders_default, fun l raw h => ?_⟩
  by_cases hr : Text.Utf8.byteCount raw ≤ l.contentBytes
  case neg =>
    have hs : normalize l raw = { text := raw, skipped := true } := if_pos (Nat.not_le.mp hr)
    rw [hs, hs]
  case pos =>
    rw [normalize_of_le hr] at h ⊢
    by_cases ht : Text.Utf8.byteCount (canonicalize l (strip raw)).text ≤ l.contentBytes
    case neg => rw [normalize, if_pos (Nat.not_le.mp ht)]
    case pos => rw [normalize_of_le ht, strip_canonicalize (strip_strip raw), canonicalize_canonicalize h]

def assignment : List Char := "a = b; // c".toList

-- There is room for one name, and then for two, but not for their placeholders.
theorem normalize_normalize_assignment :
    (Limits.AdmitsPlaceholders ⟨16, 1, 8⟩ ∧
      (normalize ⟨16, 1, 8⟩ (normalize ⟨16, 1, 8⟩ assignment).text).text =
        (normalize ⟨16, 1, 8⟩ assignment).text) ∧
    ((normalize ⟨64, 2, 4⟩ assignment).untracked = 0 ∧
      (normalize ⟨64, 2, 4⟩ (normalize ⟨64, 2, 4⟩ assignment).text).text =
        (normalize ⟨64, 2, 4⟩ assignment).text) := by
  have ha : Limits.AdmitsPlaceholders ⟨16, 1, 8⟩ :=
    Limits.admitsPlaceholders_iff.mpr (.inr (by rw [length_placeholder]; decide))
  have hs : Limits.Suffice ⟨64, 2, 4⟩ (strip assignment) := ⟨by decide +kernel, by decide +kernel⟩
  have hc : (normalize ⟨64, 2, 4⟩ assignment).IsComplete :=
    isComplete_normalize_iff.mpr ⟨by decide +kernel, hs.isComplete⟩
  refine ⟨⟨ha, ?_⟩, ⟨hc.untracked, ?_⟩⟩
  · exact normalize_normalize.right _ _ (.inl ha)
  · exact normalize_normalize.right _ _ (.inr hc.untracked)

end DuplicateBlocks.Code
